import HarddriveParty.WebUi.Model
import HarddriveParty.WebUi.Paths
import Mathlib.Data.List.TakeWhile

/-!
# The rows of a peer card

Model of `web-ui/src/peer.rs`: a peer card shows the visible entries in a range of keys. An
entry is visible when each of its ancestors below the root is in the map and expanded. The
range is the peer's own, with the entries of every peer whose name goes on behind this one with
a byte below the tilde; so the card is right where none of those entries is visible.
-/

namespace HarddriveParty

open OrderedTree Parts

/-- The loop of `is_visible_in_peer_tree` over the components that are left: each ancestor is
there and expanded. -/
def ancestorsOpen (files : FilesMap) (peerPath : PeerPath) : String → List (List Char) → Bool
  | _, [] => true
  | current, component :: rest =>
    let current := (if current = "" then current else current ++ "/") ++ String.ofList component
    if current = peerPath.path then true
    else
      match files.get? ⟨peerPath.peerName, current⟩ with
      | none => false
      | some ancestor =>
        if ancestor.isExpanded then ancestorsOpen files peerPath current rest else false

/-- `is_visible_in_peer_tree` (`web-ui/src/peer.rs:14`). -/
def isVisibleInPeerTree (files : FilesMap) (peerPath : PeerPath) : Bool :=
  if peerPath.path = "" then true
  else
    ancestorsOpen files peerPath ""
      ((peerPath.path.toList.splitOn '/').takeWhile fun component ↦ component ≠ [])

/-- `files_iter` of the component `Peer` (`web-ui/src/peer.rs:75`). -/
def peerRows (files : FilesMap) (name : String) : List File :=
  ((files.rangeInclusive ⟨name, ""⟩ ⟨name ++ "~", ""⟩).filter fun kv ↦
    isVisibleInPeerTree files kv.1).map Prod.snd

/-- Every proper ancestor of the entry, other than the root, is in the map and expanded. -/
def AncestorsExpanded (files : FilesMap) (k : PeerPath) : Prop :=
  ∀ ancestor, ancestor ≠ "" → IsPathAncestor ancestor k.path →
    ∃ f, files.get? ⟨k.peerName, ancestor⟩ = some f ∧ f.isExpanded = true

/-- The path has no empty components. -/
def NoEmptyComponents (path : String) : Prop := ∀ component ∈ pathComponents path, component ≠ []

/-- The rows are the files of a peer whose ancestors are expanded, each once, in path order. -/
def ShowsVisibleTree (files : FilesMap) (name : String) (rows : List File) : Prop :=
  ∃ keys : List PeerPath, rows.map some = keys.map files.get? ∧
    (keys.Pairwise fun a b ↦ Utf8.compareBytes a.path b.path = .lt) ∧
    ∀ k, k ∈ keys ↔
      k.peerName = name ∧ (files.get? k).isSome ∧ AncestorsExpanded files k

/-- Another peer's entry in the key range of a peer card: the name of that peer goes on with a
byte below `~`, or the entry is the root of the peer whose name goes on with `~` alone. -/
def StraysInto (name : String) (k : PeerPath) : Prop :=
  (∃ x rest, Utf8.encode k.peerName = Utf8.encode name ++ x :: rest ∧ x < 126) ∨
    k = ⟨name ++ "~", ""⟩

section Visible

/-- The path with the given components. -/
def joinComponents (cs : List (List Char)) : String := String.ofList (['/'].intercalate cs)

/-- The components are some of a path without empty ones. -/
def AreComponents (cs : List (List Char)) : Prop := ∀ c ∈ cs, c ≠ [] ∧ '/' ∉ c

theorem pathComponents_joinComponents {cs : List (List Char)} (h : AreComponents cs) :
    pathComponents (joinComponents cs) = cs := by
  unfold pathComponents joinComponents
  rw [String.toList_ofList]
  exact parts_intercalate (fun c hc ↦ (h c hc).1) (fun c hc ↦ (h c hc).2)

theorem joinComponents_pathComponents (path : String) :
    joinComponents (pathComponents path) = path := by
  unfold pathComponents joinComponents
  rw [intercalate_parts, String.ofList_toList]

theorem areComponents_pathComponents {path : String} (h : NoEmptyComponents path) :
    AreComponents (pathComponents path) :=
  fun c hc ↦ ⟨h c hc, notMem_of_mem_parts hc⟩

/-- The loop puts the next component behind a slash, the first one without. -/
theorem joinComponents_concat {cs : List (List Char)} (h : AreComponents cs) (c : List Char) :
    joinComponents (cs ++ [c]) =
      (if joinComponents cs = "" then joinComponents cs else joinComponents cs ++ "/") ++
        String.ofList c := by
  by_cases hcs : cs = []
  · subst hcs
    simp [joinComponents]
  · have hne : joinComponents cs ≠ "" := by
      intro he
      have hparts := pathComponents_joinComponents h
      rw [he] at hparts
      exact hcs hparts.symm
    rw [if_neg hne, ← String.toList_inj]
    unfold joinComponents
    rw [intercalate_append hcs (by simp)]
    simp

variable {files : FilesMap} {k : PeerPath}

/-- The ancestor with the given components is in the map and expanded. -/
def IsOpen (files : FilesMap) (k : PeerPath) (cs : List (List Char)) : Prop :=
  ∃ f, files.get? ⟨k.peerName, joinComponents cs⟩ = some f ∧ f.isExpanded = true

/-- The loop stops at the path itself when no component is left. -/
theorem joinComponents_eq_append_iff {cs rest : List (List Char)} (h : AreComponents (cs ++ rest)) :
    joinComponents cs = joinComponents (cs ++ rest) ↔ rest = [] := by
  constructor
  · intro he
    have hcs : AreComponents cs := fun c hc ↦ h c (List.mem_append_left _ hc)
    have hparts := congrArg pathComponents he
    rw [pathComponents_joinComponents hcs, pathComponents_joinComponents h] at hparts
    simpa using hparts
  · rintro rfl
    rw [List.append_nil]

/-- The loop succeeds exactly when every ancestor that it has not passed yet is open. -/
theorem ancestorsOpen_iff (passed rest : List (List Char)) (h : AreComponents (passed ++ rest))
    (hpath : k.path = joinComponents (passed ++ rest)) :
    ancestorsOpen files k (joinComponents passed) rest = true ↔
      ∀ more, more ≠ [] → more <+: rest → more ≠ rest → IsOpen files k (passed ++ more) := by
  induction rest generalizing passed with
  | nil =>
    refine iff_of_true rfl fun more hmore hpre _ ↦ ?_
    exact absurd (List.prefix_nil.mp hpre) hmore
  | cons c rest ih =>
    have hassoc : passed ++ c :: rest = passed ++ [c] ++ rest := by simp
    have hpassed : AreComponents passed := fun d hd ↦ h d (List.mem_append_left _ hd)
    rw [hassoc] at h hpath
    have hend : joinComponents (passed ++ [c]) = k.path ↔ rest = [] := by
      rw [hpath, joinComponents_eq_append_iff h]
    rw [ancestorsOpen, ← joinComponents_concat hpassed c, forall_proper_prefix_cons]
    by_cases hrest : rest = []
    · rw [if_pos (hend.mpr hrest)]
      exact iff_of_true rfl fun hne ↦ absurd hrest hne
    · rw [if_neg (mt hend.mp hrest)]
      -- the ancestors not passed yet are the next one and those below it
      have hih := ih (passed ++ [c]) h hpath
      simp only [List.append_assoc, List.singleton_append] at hih
      rw [forall_prop_of_true hrest, ← hih]
      unfold IsOpen
      cases hget : files.get? ⟨k.peerName, joinComponents (passed ++ [c])⟩ with
      | none => simp
      | some f =>
        cases hexp : f.isExpanded with
        | true => simp [hexp]
        | false => simp [hexp]

/-- An entry is visible exactly when its ancestors below the root are there and expanded. -/
theorem isVisibleInPeerTree_iff (h : NoEmptyComponents k.path) :
    isVisibleInPeerTree files k = true ↔ AncestorsExpanded files k := by
  unfold isVisibleInPeerTree
  by_cases hroot : k.path = ""
  · rw [if_pos hroot]
    refine iff_of_true rfl fun ancestor hne hanc ↦ absurd ?_ hne
    have hpre := hanc.1
    rw [hroot] at hpre
    exact pathComponents_inj.mp (List.prefix_nil.mp hpre)
  · have hparts : k.path.toList.splitOn '/' = pathComponents k.path :=
      (parts_of_ne_nil (mt String.toList_eq_nil_iff.mp hroot)).symm
    have htake : (pathComponents k.path).takeWhile (fun c ↦ c ≠ []) = pathComponents k.path :=
      List.takeWhile_eq_self_iff.mpr fun c hc ↦ decide_eq_true (h c hc)
    have hloop : ancestorsOpen files k "" (pathComponents k.path) = true ↔
        ∀ more, more ≠ [] → more <+: pathComponents k.path → more ≠ pathComponents k.path →
          IsOpen files k more :=
      ancestorsOpen_iff [] (pathComponents k.path) (areComponents_pathComponents h)
        (joinComponents_pathComponents k.path).symm
    rw [if_neg hroot, hparts, htake]
    refine hloop.trans ⟨?_, ?_⟩
    · intro hall ancestor hne hanc
      have hopen := hall (pathComponents ancestor)
        (mt parts_eq_nil_iff.mp (mt String.toList_eq_nil_iff.mp hne)) hanc.1
        (mt pathComponents_inj.mp hanc.2)
      rwa [IsOpen, joinComponents_pathComponents] at hopen
    · intro hall more hmore hpre hne
      have hgood : AreComponents more :=
        fun c hc ↦ areComponents_pathComponents h c (hpre.subset hc)
      have hparts := pathComponents_joinComponents hgood
      apply hall (joinComponents more)
      · intro he
        rw [he] at hparts
        exact hmore hparts.symm
      · refine ⟨by rwa [hparts], fun he ↦ hne ?_⟩
        rw [← hparts, he]

end Visible

section Rows

variable {files : FilesMap} {name : String}

/-- The key range of a peer card. -/
private theorem inCardRange_iff {k : PeerPath} :
    InClosedRange PeerPath.cmp ⟨name, ""⟩ ⟨name ++ "~", ""⟩ k ↔
      k.peerName = name ∨ StraysInto name k := by
  have hrange : ∀ j : PeerPath, InRange PeerPath.cmp ⟨name, ""⟩ ⟨name ++ "~", ""⟩ j ↔
      ∃ r, Utf8.encode j.peerName = Utf8.encode name ++ r ∧ ∀ x ∈ r.head?, x < 126 := by
    intro j
    have hlo : PeerPath.cmpPath ⟨name, ""⟩ j ≠ .gt :=
      Ordering.isLE_iff_ne_gt.mp List.isLE_compare_nil_left
    have hhi : PeerPath.cmpPath j ⟨name ++ "~", ""⟩ ≠ .lt :=
      Ordering.isGE_iff_ne_lt.mp List.isGE_compare_nil_right
    rw [PeerPath.cmp, inRange_compareLex_of_least hlo hhi]
    exact PeerPath.inRange_tilde
  have hle : PeerPath.cmp ⟨name, ""⟩ ⟨name ++ "~", ""⟩ ≠ .gt := by
    have hmem := (hrange ⟨name, ""⟩).mpr ⟨[], by simp, by simp⟩
    rw [hmem.2]
    decide
  rw [inClosedRange_iff hle, hrange, StraysInto, ← or_assoc]
  refine or_congr_left ⟨?_, ?_⟩
  · rintro ⟨r, hr, hhead⟩
    cases r with
    | nil => exact Or.inl (Utf8.encode_inj.mp (by rw [hr, List.append_nil]))
    | cons x rest => exact Or.inr ⟨x, rest, hr, hhead x rfl⟩
  · rintro (rfl | ⟨x, rest, hr, hx⟩)
    · exact ⟨[], by simp, by simp⟩
    · exact ⟨x :: rest, hr, by simpa using hx⟩

private theorem peerName_ne_of_straysInto {k : PeerPath} (h : StraysInto name k) :
    k.peerName ≠ name := by
  rintro rfl
  rcases h with ⟨x, rest, h, -⟩ | h
  · simp at h
  · have hlen := congrArg (fun j : PeerPath ↦ (Utf8.encode j.peerName).length) h
    rw [Utf8.encode_append, List.length_append] at hlen
    exact absurd hlen (Nat.ne_of_lt (Nat.lt_add_of_pos_right (by decide)))

/-- The rows are the files of the visible entries in the key range. -/
private theorem mem_peerRows_keys (hpaths : ∀ k f, files.get? k = some f → NoEmptyComponents k.path)
    {k : PeerPath} {f : File} :
    (k, f) ∈ (files.rangeInclusive ⟨name, ""⟩ ⟨name ++ "~", ""⟩).filter (fun kv ↦
        isVisibleInPeerTree files kv.1) ↔
      files.get? k = some f ∧ (k.peerName = name ∨ StraysInto name k) ∧
        AncestorsExpanded files k := by
  rw [List.mem_filter, FilesMap.rangeInclusive, mem_select, inCardRange_iff, and_assoc]
  refine and_congr_right fun hf ↦ and_congr_right fun _ ↦ ?_
  exact isVisibleInPeerTree_iff (hpaths k f hf)

/-- A visible entry of another peer in the key range spoils the card. -/
private theorem not_showsVisibleTree
    (hpaths : ∀ k f, files.get? k = some f → NoEmptyComponents k.path) {k : PeerPath} {f : File}
    (hf : files.get? k = some f) (hstray : StraysInto name k)
    (hvis : AncestorsExpanded files k) : ¬ ShowsVisibleTree files name (peerRows files name) := by
  rintro ⟨keys, hrows, -, hkeys⟩
  have hrow : f ∈ peerRows files name :=
    List.mem_map.mpr ⟨(k, f), (mem_peerRows_keys hpaths).mpr ⟨hf, Or.inr hstray, hvis⟩, rfl⟩
  have hshown : some f ∈ keys.map files.get? := by
    rw [← hrows]
    exact List.mem_map_of_mem hrow
  obtain ⟨j, hj, hjf⟩ := List.mem_map.mp hshown
  -- both keys are that of the file
  have hkey : j = k := (files.key_of_get? hjf).symm.trans (files.key_of_get? hf)
  exact peerName_ne_of_straysInto hstray (hkey ▸ ((hkeys j).mp hj).1)

/-- A peer card shows exactly the visible tree of its peer, if and only if no visible entry of
another peer strays into its key range. -/
theorem peerRows_iff (files : FilesMap) (name : String)
    (hpaths : ∀ k f, files.get? k = some f → NoEmptyComponents k.path) :
    ShowsVisibleTree files name (peerRows files name) ↔
      ∀ k f, files.get? k = some f → StraysInto name k → ¬ AncestorsExpanded files k := by
  constructor
  · intro hshows k f hf hstray hvis
    exact not_showsVisibleTree hpaths hf hstray hvis hshows
  · intro hnone
    let visible := (files.rangeInclusive ⟨name, ""⟩ ⟨name ++ "~", ""⟩).filter fun kv ↦
      isVisibleInPeerTree files kv.1
    have hmem : ∀ k f, (k, f) ∈ visible ↔
        files.get? k = some f ∧ k.peerName = name ∧ AncestorsExpanded files k := by
      intro k f
      rw [mem_peerRows_keys hpaths]
      refine and_congr_right fun hf ↦ and_congr_left fun hvis ↦ or_iff_left ?_
      exact fun hstray ↦ hnone k f hf hstray hvis
    refine ⟨visible.map Prod.fst, ?_, ?_, ?_⟩
    · rw [peerRows, List.map_map, List.map_map]
      refine List.map_congr_left fun kv hkv ↦ ?_
      exact ((hmem kv.1 kv.2).mp hkv).1.symm
    · rw [List.pairwise_map]
      refine List.Pairwise.imp_of_mem ?_ ((pairwise_select files.tree _).filter _)
      intro a b ha hb hab
      have hname : a.1.peerName = b.1.peerName :=
        ((hmem a.1 a.2).mp ha).2.1.trans ((hmem b.1 b.2).mp hb).2.1.symm
      have hsame : PeerPath.cmpPeerName a.1 b.1 = .eq := by
        unfold PeerPath.cmpPeerName
        rw [hname]
        exact Std.ReflCmp.compare_self
      rw [PeerPath.cmp, compareLex, hsame] at hab
      exact hab
    · intro k
      rw [List.mem_map]
      constructor
      · rintro ⟨⟨k, f⟩, hkf, rfl⟩
        obtain ⟨hf, hname, hvis⟩ := (hmem k f).mp hkf
        exact ⟨hname, by rw [hf]; rfl, hvis⟩
      · rintro ⟨hname, hin, hvis⟩
        obtain ⟨f, hf⟩ := Option.isSome_iff_exists.mp hin
        exact ⟨(k, f), (hmem k f).mpr ⟨hf, hname, hvis⟩, rfl⟩

/-- A folder of `ann` with a song in it. -/
private def shelf : FilesMap :=
  (FilesMap.empty.insertEntry "ann" ⟨"music", 5, true⟩).insertEntry "ann" ⟨"music/song", 5, false⟩

/-- The card of `ann` shows the visible part of her files. -/
theorem peerRows_shelf : ShowsVisibleTree shelf "ann" (peerRows shelf "ann") := by
  have hkeys : ∀ k f, shelf.get? k = some f →
      k = ⟨"ann", "music/song"⟩ ∨ k = ⟨"ann", "music"⟩ := by
    intro k f hf
    by_cases hsong : k = ⟨"ann", "music/song"⟩
    · exact Or.inl hsong
    · by_cases hmusic : k = ⟨"ann", "music"⟩
      · exact Or.inr hmusic
      · simp [shelf, FilesMap.insertEntry, FilesMap.get?_entry, hsong, hmusic] at hf
  refine (peerRows_iff shelf "ann" ?_).mpr ?_
  · intro k f hf
    rcases hkeys k f hf with rfl | rfl
    · unfold NoEmptyComponents
      decide
    · unfold NoEmptyComponents
      decide
  · intro k f hf hstray
    have hname : k.peerName = "ann" := by rcases hkeys k f hf with rfl | rfl <;> rfl
    exact absurd hname (peerName_ne_of_straysInto hstray)

/-- The card of `ann` shows the files of `anna`. -/
theorem ann_shows_anna :
    ¬ ∀ files name, (∀ k f, files.get? k = some f → NoEmptyComponents k.path) →
      ShowsVisibleTree files name (peerRows files name) := by
  intro h
  let files := FilesMap.empty.insertEntry "anna" ⟨"song", 5, false⟩
  let song : PeerPath := ⟨"anna", "song"⟩
  have hget : ∀ k, files.get? k =
      if k = song then some (File.fromEntry ⟨"song", 5, false⟩ "anna") else none := by
    intro k
    simp [files, song, FilesMap.insertEntry, FilesMap.get?_entry]
  have hpath : NoEmptyComponents "song" := by
    unfold NoEmptyComponents
    decide
  have hpaths : ∀ k f, files.get? k = some f → NoEmptyComponents k.path := by
    intro k f hf
    rw [hget] at hf
    split at hf
    · next hk =>
      rw [hk]
      exact hpath
    · cases hf
  have hstray : StraysInto "ann" song := Or.inl ⟨97, [], by decide, by decide⟩
  have hsong : files.get? song = some (File.fromEntry ⟨"song", 5, false⟩ "anna") := by
    rw [hget, if_pos rfl]
  have hvis : AncestorsExpanded files song := by
    apply (isVisibleInPeerTree_iff hpath).mp
    have hcut : ("song".toList.splitOn '/').takeWhile (fun c ↦ c ≠ []) =
        [['s', 'o', 'n', 'g']] := by decide
    rw [isVisibleInPeerTree, if_neg (by decide), hcut, ancestorsOpen, if_pos (by decide)]
  exact not_showsVisibleTree hpaths hsong hstray hvis (h files "ann" hpaths)

end Rows

end HarddriveParty
