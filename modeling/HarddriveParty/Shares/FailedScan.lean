import HarddriveParty.Shares.ScanEffect

/-!
# Scans that fail

A scan removes the old entries of its share and records the path before it reads the first
directory entry, so an error in the walk finds the index already changed. It is as it was
before exactly when the path was shared already and the files met before the error are
those that the share had.
-/

namespace HarddriveParty

open UnixPath OrderedTree Runs

/-- Some item of a walk ends the scan of a share with an error. -/
def walkStops (shareName : String) : List WalkItem → Bool
  | [] => false
  | .failed _ :: _ => true
  | .entry _ (.error _) _ :: _ => true
  | .entry names (.ok metadata) logged :: rest =>
    if metadata.isDir then walkStops shareName rest
    else if (Utf8.decode (sharePath shareName names)).isNone then true
    else match logged with
      | .error _ => true
      | .ok () => walkStops shareName rest

/-- The path is shared under this name, and the index holds for the share what the given files
make it hold. -/
def AlreadyIndexed (s : Shares) (root shareName : String) (l : List (List Name × UInt64)) :
    Prop :=
  s.shareNames[Utf8.encode shareName]? = some (Utf8.encode root) ∧ ShareHolds s shareName l ∧
    (l ≠ [] → (s.dirs[([] : Bytes)]?).isSome)

namespace ShareOperation

/-- The operation is a removal, or a scan that leaves the index as it was if it fails. -/
def KeepsOnError (s : Shares) : ShareOperation → Prop
  | scan root _ w => ∀ e, (s.scan root w.items).2 = .error (.error e) →
      (s.scan root w.items).1 = s
  | remove _ => True

/-- If the walk of a scan stops, then what it met before is what the share had. -/
def MeetsWhatWasIndexed (s : Shares) : ShareOperation → Prop
  | scan root _ w => ∀ shareName, Shares.shareNameForPath s.shareNames root = .ok shareName →
      walkStops shareName w.items = true →
        AlreadyIndexed s root shareName (visitedFiles shareName w.items)
  | remove _ => True

end ShareOperation

variable {s : Shares} {root shareName : String}

/-- The loop of a scan fails exactly when an item of the walk stops it. -/
private theorem scanLoop_error_iff (hname : IsName (Utf8.encode shareName)) (added : UInt32)
    {items : List WalkItem} (hne : ∀ names ∈ items.filterMap WalkItem.names?, names ≠ []) :
    (∃ e, (Shares.scanLoop root shareName s added items).2 = .error e) ↔
      walkStops shareName items = true := by
  induction items generalizing s added with
  | nil => simp [Shares.scanLoop, walkStops]
  | cons item rest ih =>
    cases item with
    | failed e => simp [Shares.scanLoop, Shares.scanEntry, walkStops]
    | entry names metadata logged =>
      cases metadata with
      | error e => simp [Shares.scanLoop, Shares.scanEntry, walkStops]
      | ok metadata =>
        have hhead : names ≠ [] := hne names (by simp [WalkItem.names?])
        have hrest : ∀ ns ∈ rest.filterMap WalkItem.names?, ns ≠ [] :=
          fun ns hns ↦ hne ns (List.mem_cons_of_mem _ hns)
        cases hdir : metadata.isDir with
        | true =>
          simpa [Shares.scanLoop, Shares.scanEntry, walkStops, hdir] using ih (added + 0) hrest
        | false =>
          cases hdec : Utf8.decode (sharePath shareName names) with
          | none =>
            have hrun := scanFile_notUtf8 hdec root metadata.len s
            simp [Shares.scanLoop, Shares.scanEntry, walkStops, hdir, hdec, hrun]
          | some path =>
            obtain ⟨dirs', hrun, -⟩ :=
              scanFile_insert hname root hhead metadata.len (by rw [hdec]; rfl) s
            cases logged with
            | error e => simp [Shares.scanLoop, Shares.scanEntry, walkStops, hdir, hdec, hrun]
            | ok u =>
              simpa [Shares.scanLoop, Shares.scanEntry, walkStops, hdir, hdec, hrun] using
                ih (added + 1) hrest

/-- In a well-formed index a name without a recorded size has no entries. -/
private theorem shareHolds_nil_of_none (h : WellFormed s) (hname : IsName (Utf8.encode shareName))
    (hget : s.getDirSize shareName = none) : ShareHolds s shareName [] := by
  have hone : joinNames [(⟨Utf8.encode shareName, hname⟩ : Name)] = Utf8.encode shareName :=
    joinNames_singleton _
  have hnone : s.dirs[joinNames [(⟨Utf8.encode shareName, hname⟩ : Name)]]? = none := by
    rw [hone]
    cases hd : s.dirs[Utf8.encode shareName]? with
    | none => rfl
    | some b =>
      obtain ⟨size, rfl⟩ := h.sizes _ b hd
      rw [Shares.getDirSize, hd] at hget
      simp at hget
  have hdirs : ∀ ns : List Name, StartsWith (joinNames ns) (Utf8.encode shareName) →
      s.dirs[joinNames ns]? = none := by
    intro ns hns
    cases hd : s.dirs[joinNames ns]? with
    | none => rfl
    | some b =>
      have hs := h.above ns _ (by simp) ((startsWith_share hname).mp hns) (by rw [hd]; rfl)
      rw [hnone] at hs
      cases hs
  constructor
  · intro k b hk
    simp only [List.not_mem_nil, false_and, exists_false, iff_false]
    intro hb
    obtain ⟨ns, hlen, rfl⟩ := h.files k (by rw [hb]; rfl)
    have hbelow : HasBelow s.files (joinNames [(⟨Utf8.encode shareName, hname⟩ : Name)]) := by
      refine ⟨_, by rw [hb]; rfl, isAncestor_joinNames.mpr ⟨(startsWith_share hname).mp hk, ?_⟩⟩
      rintro rfl
      simp at hlen
    have hs := h.present _ (by simp) hbelow
    rw [hnone] at hs
    cases hs
  · intro ns hns
    rw [hdirs ns hns]
    simp

/-- After a removal a share has no entries. -/
private theorem shareHolds_nil_of_removed (h : WellFormed s)
    (hname : IsName (Utf8.encode shareName)) {existingSize : UInt64}
    (hget : s.getDirSize shareName = some existingSize) :
    ShareHolds (s.removeShareDir shareName).1 shareName [] := by
  have hmatch : ∀ ns : List Name, StartsWith (joinNames ns) (Utf8.encode shareName) →
      shareKeyMatches (joinNames ns) shareName = true := by
    intro ns hns
    rw [shareKeyMatches_joinNames hname]
    exact (startsWith_share hname).mp hns
  rw [removeShareDir_of_getDirSize hget]
  constructor
  · intro k b hk
    simp only [List.not_mem_nil, false_and, exists_false, iff_false, getElem?_removeMatching]
    intro hb
    split at hb
    · cases hb
    · next hkeep =>
      obtain ⟨ns, -, rfl⟩ := h.files k (by rw [hb]; rfl)
      exact hkeep (hmatch ns hk)
  · intro ns hns
    simp [getElem?_removeMatching, hmatch ns hns]

/-- A removal changes nothing outside its share but the root. -/
private theorem sameOutside_removed (h : WellFormed s) (hname : IsName (Utf8.encode shareName))
    {existingSize : UInt64} (hget : s.getDirSize shareName = some existingSize) :
    SameOutside s (s.removeShareDir shareName).1 shareName := by
  have hmatch : ∀ ns : List Name, shareKeyMatches (joinNames ns) shareName = true →
      StartsWith (joinNames ns) (Utf8.encode shareName) := by
    intro ns hns
    exact (startsWith_share hname).mpr ((shareKeyMatches_joinNames hname).mp hns)
  rw [removeShareDir_of_getDirSize hget]
  constructor
  · intro k hk
    simp only [getElem?_removeMatching]
    split
    · next hm =>
      cases hf : s.files[k]? with
      | none => rfl
      | some b =>
        obtain ⟨ns, -, rfl⟩ := h.files k (by rw [hf]; rfl)
        exact absurd (hmatch ns hm) hk
    · rfl
  · intro k hne hk
    simp only [getElem?_removeMatching, getElem?_update, if_neg hne]
    split
    · next hm =>
      cases hd : s.dirs[k]? with
      | none => rfl
      | some b =>
        obtain ⟨ns, rfl⟩ := h.keys k (by rw [hd]; rfl)
        exact absurd (hmatch ns hm) hk
    · rfl

/-- What the part of a scan before the walk has made of an index `s`. -/
private structure Started (s s' : Shares) (root shareName : String) : Prop where
  wellFormed : WellFormed s'
  holds : ShareHolds s' shareName []
  names : ∀ k, s'.shareNames[k]? =
    if k = Utf8.encode shareName then some (Utf8.encode root) else s.shareNames[k]?
  outside : SameOutside s s' shareName
  root : s'.dirs[([] : Bytes)]? = match s.getDirSize shareName with
    | none => s.dirs[([] : Bytes)]?
    | some existingSize =>
      some (Bytes.leU64 (Shares.rootSizeWithout existingSize s.dirs[([] : Bytes)]?))

private theorem Started.insertName (h : WellFormed s) (hname : IsName (Utf8.encode shareName))
    (path : Bytes) :
    WellFormed { s with shareNames := s.shareNames.insert (Utf8.encode shareName) path } := by
  exact ⟨forall_keys_insert h.names hname path, h.files, h.keys, h.sizes, h.above, h.present⟩

private theorem started (h : WellFormed s)
    (hname : Shares.shareNameForPath s.shareNames root = .ok shareName) :
    (s.scanStart root).2 = .ok shareName ∧
      Started s (s.scanStart root).1 root shareName := by
  have hvalid := isName_shareNameForPath h.names hname
  cases hget : s.getDirSize shareName with
  | none =>
    have hrun : s.scanStart root =
        ({ s with
           shareNames := s.shareNames.insert (Utf8.encode shareName) (Utf8.encode root) },
          .ok shareName) := by
      simp only [Shares.scanStart, hname, removeShareDir_of_none hget]
    have hholds := shareHolds_nil_of_none h hvalid hget
    rw [hrun]
    refine ⟨rfl, Started.insertName h hvalid _, ⟨hholds.files, hholds.dirs⟩,
      fun k ↦ getElem?_insert .., ⟨fun _ _ ↦ rfl, fun _ _ _ ↦ rfl⟩, ?_⟩
    rw [hget]
  | some existingSize =>
    have hrun : s.scanStart root =
        ({ (s.removeShareDir shareName).1 with
           shareNames := (s.removeShareDir shareName).1.shareNames.insert
             (Utf8.encode shareName) (Utf8.encode root) }, .ok shareName) := by
      simp only [Shares.scanStart, hname, removeShareDir_of_getDirSize hget]
    have hholds := shareHolds_nil_of_removed h hvalid hget
    have houtside := sameOutside_removed h hvalid hget
    rw [hrun]
    refine ⟨rfl, Started.insertName (h.removeShareDir shareName) hvalid _,
      ⟨hholds.files, hholds.dirs⟩, fun k ↦ ?_, ⟨houtside.files, houtside.dirs⟩, ?_⟩
    · simp only [getElem?_insert]
      split
      · rfl
      · next hk =>
        rw [removeShareDir_of_getDirSize hget]
        simp only [getElem?_erase, if_neg hk]
    · rw [hget]
      have hempty : ¬ shareKeyMatches [] shareName = true := by
        rw [← joinNames_nil, shareKeyMatches_joinNames hvalid]
        simp
      rw [removeShareDir_of_getDirSize hget]
      simp only [getElem?_removeMatching, if_neg hempty, getElem?_update, if_pos]

/-- A share with files is recorded with their size. -/
private theorem getDirSize_of_holds (hname : IsName (Utf8.encode shareName))
    {l : List (List Name × UInt64)} (hl : ∀ f ∈ l, f.1 ≠ []) (hne : l ≠ [])
    (h : ShareHolds s shareName l) :
    s.getDirSize shareName = some (UInt64.ofNat (listedSize l)) := by
  have hone : joinNames [(⟨Utf8.encode shareName, hname⟩ : Name)] = Utf8.encode shareName :=
    joinNames_singleton _
  have habove : ∀ f ∈ l, IsAncestor (Utf8.encode shareName) (sharePath shareName f.1) := by
    intro f hf
    rw [← hone, sharePath_eq hname (hl f hf), isAncestor_joinNames]
    exact ⟨⟨f.1, rfl⟩, by simpa using (hl f hf).symm⟩
  have hsum : listedBelow shareName l (Utf8.encode shareName) = listedSize l := by
    unfold listedBelow listedSize
    congr 1
    exact List.map_congr_left fun f hf ↦ if_pos (habove f hf)
  obtain ⟨f, hf⟩ := List.exists_mem_of_ne_nil l hne
  have hdir := h.dirs [⟨Utf8.encode shareName, hname⟩] ((startsWith_share hname).mpr (by simp))
  rw [hone, if_pos ⟨f, hf, habove f hf⟩, hsum] at hdir
  rw [Shares.getDirSize, hdir]
  simp

/-- A share without files has no recorded size. -/
private theorem getDirSize_of_holds_nil (hname : IsName (Utf8.encode shareName))
    (h : ShareHolds s shareName []) : s.getDirSize shareName = none := by
  have hdir := h.dirs [⟨Utf8.encode shareName, hname⟩] ((startsWith_share hname).mpr (by simp))
  rw [joinNames_singleton] at hdir
  rw [Shares.getDirSize, hdir]
  simp

/-- What two well-formed indexes hold below a share is determined by its files. -/
private theorem ShareHolds.unique {s' : Shares} (hs : WellFormed s) (hs' : WellFormed s')
    {l : List (List Name × UInt64)} (h : ShareHolds s shareName l)
    (h' : ShareHolds s' shareName l) {k : Bytes} (hk : StartsWith k (Utf8.encode shareName)) :
    s'.files[k]? = s.files[k]? ∧ s'.dirs[k]? = s.dirs[k]? := by
  constructor
  · apply Option.ext
    intro b
    rw [h.files k b hk, h'.files k b hk]
  · by_cases hplain : ∃ ns : List Name, k = joinNames ns
    · obtain ⟨ns, rfl⟩ := hplain
      rw [h.dirs ns hk, h'.dirs ns hk]
    · have hnone : ∀ {s : Shares}, WellFormed s → s.dirs[k]? = none := by
        intro s hs
        cases hd : s.dirs[k]? with
        | none => rfl
        | some b => exact absurd (hs.keys k (by rw [hd]; rfl)) hplain
      rw [hnone hs, hnone hs']

/-- When a scan indexes what was indexed before, the root size is restored. -/
private theorem root_restored {s₁ s₂ : Shares} {l : List (List Name × UInt64)}
    (h : WellFormed s) (hname : IsName (Utf8.encode shareName))
    (hstart : Started s s₁ root shareName) (hscanned : Scanned s₁ s₂ shareName l)
    (hholds : ShareHolds s shareName l) (hroot : l ≠ [] → (s.dirs[([] : Bytes)]?).isSome) :
    s₂.dirs[([] : Bytes)]? = s.dirs[([] : Bytes)]? := by
  have hbefore := hstart.root
  by_cases hl : l = []
  · subst hl
    rw [getDirSize_of_holds_nil hname hholds] at hbefore
    rw [hscanned.root, if_pos rfl, hbefore]
  · rw [getDirSize_of_holds hname hscanned.named hl hholds] at hbefore
    obtain ⟨b, hb⟩ := Option.isSome_iff_exists.mp (hroot hl)
    obtain ⟨size, rfl⟩ := h.sizes _ b hb
    rw [hb] at hbefore
    rw [hscanned.root, if_neg hl, rootSize_eq, hbefore, hb]
    simp [Shares.rootSizeWithout]

/-- A scan of a well-formed index leaves it as it was exactly when what it visited was
indexed before. -/
theorem scan_unchanged_iff (h : WellFormed s)
    (hname : Shares.shareNameForPath s.shareNames root = .ok shareName) {t : DirTree}
    (w : Walk t) : (s.scan root w.items).1 = s ↔
      AlreadyIndexed s root shareName (visitedFiles shareName w.items) := by
  have hvalid := isName_shareNameForPath h.names hname
  obtain ⟨hok, hstart⟩ := started h hname
  rcases hs : s.scanStart root with ⟨s₁, r⟩
  rw [hs] at hok hstart
  subst hok
  have hscanned := hstart.wellFormed.scanLoop hvalid hstart.holds root 0 w
  rcases hl : Shares.scanLoop root shareName s₁ 0 w.items with ⟨s₂, r⟩
  rw [hl] at hscanned
  have hrun : (s.scan root w.items).1 = s₂ := by
    cases r with
    | error e => simp [Shares.scan, hs, hl]
    | ok n => simp [Shares.scan, hs, hl]
  rw [hrun]
  constructor
  · rintro rfl
    refine ⟨?_, hscanned.holds, fun hne ↦ ?_⟩
    · rw [hscanned.names, hstart.names, if_pos rfl]
    · rw [hscanned.root, if_neg hne]
      rfl
  · rintro ⟨hpath, hholds, hroot⟩
    have hfiles : s₂.files = s.files := by
      apply Std.ExtTreeMap.ext_getElem?
      intro k
      by_cases hk : StartsWith k (Utf8.encode shareName)
      · exact (hholds.unique h hscanned.wellFormed hscanned.holds hk).1
      · rw [hscanned.outside.files k hk, hstart.outside.files k hk]
    have hdirs : s₂.dirs = s.dirs := by
      apply Std.ExtTreeMap.ext_getElem?
      intro k
      by_cases hempty : k = []
      · rw [hempty]
        exact root_restored h hvalid hstart hscanned hholds hroot
      · by_cases hk : StartsWith k (Utf8.encode shareName)
        · exact (hholds.unique h hscanned.wellFormed hscanned.holds hk).2
        · rw [hscanned.outside.dirs k hempty hk, hstart.outside.dirs k hempty hk]
    have hnames : s₂.shareNames = s.shareNames := by
      apply Std.ExtTreeMap.ext_getElem?
      intro k
      rw [hscanned.names, hstart.names]
      split
      · next hk => rw [hk, hpath]
      · rfl
    obtain ⟨files, dirs, shareNames⟩ := s₂
    cases hfiles
    cases hdirs
    cases hnames
    rfl

/-- A scan of a directory that gets a name: it fails exactly when its walk stops, and it keeps
the index well formed. -/
private theorem scan_of_name (h : WellFormed s)
    (hname : Shares.shareNameForPath s.shareNames root = .ok shareName) {t : DirTree}
    (w : Walk t) :
    ((∃ e, (s.scan root w.items).2 = .error (.error e)) ↔ walkStops shareName w.items = true) ∧
      WellFormed (s.scan root w.items).1 := by
  have hvalid := isName_shareNameForPath h.names hname
  obtain ⟨hok, hstart⟩ := started h hname
  rcases hs : s.scanStart root with ⟨s₁, r⟩
  rw [hs] at hok hstart
  subst hok
  have hscanned := hstart.wellFormed.scanLoop hvalid hstart.holds root 0 w
  have herror : (∃ e, (Shares.scanLoop root shareName s₁ 0 w.items).2 = .error e) ↔
      walkStops shareName w.items = true := scanLoop_error_iff hvalid 0 w.names_ne_nil
  rcases hl : Shares.scanLoop root shareName s₁ 0 w.items with ⟨s₂, r⟩
  rw [hl] at hscanned herror
  rw [← herror]
  cases r with
  | error e => simpa [Shares.scan, hs, hl] using hscanned.wellFormed
  | ok n => simpa [Shares.scan, hs, hl] using hscanned.wellFormed

/-- A scan that gets no name changes nothing. -/
private theorem scan_of_no_name {e : Fault ScanDirError}
    (hname : Shares.shareNameForPath s.shareNames root = .error e) (items : List WalkItem) :
    s.scan root items = (s, .error e) := by
  simp only [Shares.scan, Shares.scanStart, hname]

/-- Every operation keeps an index well formed. -/
theorem WellFormed.run (h : WellFormed s) (op : ShareOperation) : WellFormed (op.run s) := by
  cases op with
  | scan root t w =>
    cases hname : Shares.shareNameForPath s.shareNames root with
    | ok shareName => exact (scan_of_name h hname w).2
    | error e =>
      show WellFormed (s.scan root w.items).1
      rw [scan_of_no_name hname]
      exact h
  | remove shareName => exact h.removeShareDir shareName

/-- In a well-formed index an operation keeps the index on an error exactly when the walk met
what was indexed before it stopped. -/
theorem keepsOnError_iff (h : WellFormed s) (op : ShareOperation) :
    op.KeepsOnError s ↔ op.MeetsWhatWasIndexed s := by
  cases op with
  | remove shareName => exact Iff.rfl
  | scan root t w =>
    cases hname : Shares.shareNameForPath s.shareNames root with
    | error e =>
      apply iff_of_true
      · intro _ _
        rw [scan_of_no_name hname]
      · intro shareName hok
        rw [hname] at hok
        cases hok
    | ok shareName =>
      obtain ⟨hfails, -⟩ := scan_of_name h hname w
      have hsame := scan_unchanged_iff h hname w
      constructor
      · intro hkeeps name hok hstops
        rw [hname] at hok
        cases hok
        obtain ⟨e, he⟩ := hfails.mpr hstops
        exact hsame.mp (hkeeps e he)
      · intro hmeets e he
        exact hsame.mpr (hmeets shareName hname (hfails.mp ⟨e, he⟩))

/-- Along every run of scans and removals of any strings, every scan that fails leaves the
index as it was exactly when every walk that stops met what its share had before. -/
theorem failed_scan_keeps_index_iff (ops : List ShareOperation) :
    EachStep ShareOperation.run (fun s op ↦ op.KeepsOnError s) Shares.empty ops ↔
      EachStep ShareOperation.run (fun s op ↦ op.MeetsWhatWasIndexed s) Shares.empty ops := by
  apply eachStep_iff (I := WellFormed) (A := fun _ _ ↦ True)
  · exact wellFormed_empty
  · exact eachStep_of_forall fun _ _ ↦ trivial
  · exact fun s op h _ ↦ keepsOnError_iff h op
  · exact fun s op h _ _ ↦ h.run op

/-- A directory without entries. -/
def DirTree.none : DirTree where
  entries := []
  nodup := by simp
  ne_nil := by simp
  closed := by simp

/-- The walk of a directory that does not exist. -/
def Walk.missing : Walk DirTree.none where
  items := [.failed ⟨"No such file or directory (os error 2)"⟩]
  fromTree := by decide
  once := by decide

/-- A directory that does not exist becomes a share. -/
theorem failed_scan_adds_share :
    ¬ EachStep ShareOperation.run (fun s op ↦ op.KeepsOnError s) Shares.empty
      [.scan "/a/foo" DirTree.none Walk.missing] := by
  rintro ⟨hkeeps, -⟩
  have herror : (Shares.empty.scan "/a/foo" Walk.missing.items).2 =
      .error (.error (.ioError ⟨"No such file or directory (os error 2)"⟩)) := by decide
  have hsame := congrArg (fun s : Shares ↦ (s.shareNames[Utf8.encode "foo"]?).isSome)
    (hkeeps _ herror)
  exact absurd hsame (by decide)

end HarddriveParty
