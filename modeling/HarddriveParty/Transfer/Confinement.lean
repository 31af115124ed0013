import HarddriveParty.Transfer.Target

/-!
# A download stays in the download directory

Whatever a peer calls a file, and whatever links lie in the file system, setting up its
download adds entries below the download directory only, apart from the directory itself and
its parents, and opens a regular file that is reached from it through real directories.
-/

namespace HarddriveParty

open UnixPath UnixFs

section Below

variable {fs : Fs} {current : Bytes} {C ns : List Name} {n : Name}

/-- The location is below `C`. -/
def Below (C q : List Name) : Prop := C <+: q ∧ q ≠ C

private theorem below_append (C : List Name) {ns : List Name} (h : ns ≠ []) :
    Below C (C ++ ns) :=
  ⟨List.prefix_append C ns, by simpa using h⟩

private theorem Below.of_child {q : List Name} (h : Below (C ++ [n]) q) : Below C q := by
  refine ⟨(List.prefix_append C [n]).trans h.1, ?_⟩
  rintro rfl
  have hl := h.1.length_le
  simp at hl

/-- Creating the directories on the way adds entries below the first one, and if it succeeds
the path of the names leads to their location. -/
theorem ensureSafeParentDirs_spec (h : fs.Leads current C) (ns : List Name) :
    fs.Adds (Below C) (ensureSafeParentDirs fs current (ns.map fun m ↦ .normal m.val)).1 ∧
      ((ensureSafeParentDirs fs current (ns.map fun m ↦ .normal m.val)).2 = .ok () →
        (ensureSafeParentDirs fs current (ns.map fun m ↦ .normal m.val)).1.Leads
          (ns.foldl (fun q m ↦ join q m.val) current) (C ++ ns)) := by
  induction ns generalizing fs current C with
  | nil =>
    refine ⟨Fs.Adds.refl _ fs, fun _ ↦ ?_⟩
    rwa [List.append_nil]
  | cons n ns ih =>
    rw [List.map_cons, List.foldl_cons, List.append_cons]
    by_cases hnul : 0 ∈ n.val
    · rw [ensureSafeParentDirs]
      simp only [symlinkMetadata_of_nul fs current hnul]
      exact ⟨Fs.Adds.refl _ fs, fun h ↦ by cases h⟩
    · by_cases hn : fs.node (C ++ [n]) = none ∨ fs.node (C ++ [n]) = some .dir
      · rcases hn with hn | hn
        · rw [parents_missing h hnul hn]
          have hgrows := grows_put_missing h hnul hn
          have hput := (Fs.adds_put h.2 hn .dir hgrows).mono fun q hq ↦
            hq ▸ below_append C (List.cons_ne_nil n [])
          obtain ⟨hadds, hleads⟩ := ih ((h.grows hgrows).enter hnul (node_put_self h hn))
          exact ⟨hput.trans (hadds.mono fun q hq ↦ hq.of_child), hleads⟩
        · rw [parents_dir h hnul hn]
          obtain ⟨hadds, hleads⟩ := ih (h.enter hnul hn)
          exact ⟨hadds.mono fun q hq ↦ hq.of_child, hleads⟩
      · obtain ⟨e, he⟩ := parents_blocked h hnul hn
        rw [he]
        exact ⟨Fs.Adds.refl _ fs, fun h ↦ by cases h⟩

/-- Opening a target that passed the check opens a regular file of its directory. -/
theorem openAppend_spec (h : fs.Leads current C)
    (hcheck : rejectExistingSymlinkOrDirectory fs (join current n.val) = .ok ()) :
    ∃ fs', fs.openAppend (join current n.val) = (fs', .ok (C ++ [n])) ∧
      fs.Adds (· = C ++ [n]) fs' ∧ ∃ c, fs'.node (C ++ [n]) = some (.file c) := by
  have hnul : 0 ∉ n.val := by
    intro hz
    rw [rejectExistingSymlinkOrDirectory, symlinkMetadata_of_nul fs current hz] at hcheck
    cases hcheck
  rw [rejectExistingSymlinkOrDirectory, h.symlinkMetadata_join hnul, Fs.nodeAt] at hcheck
  cases hn : fs.node (C ++ [n]) with
  | none =>
    have hopen := h.openAppend_missing hnul hn
    have hgrows := Fs.grows_openAppend fs (join current n.val)
    rw [hopen] at hgrows
    refine ⟨_, hopen, Fs.adds_put h.2 hn _ hgrows, [], ?_⟩
    rw [Fs.node_put h.2 (by simp [hn])]
    exact if_pos rfl
  | some x =>
    rw [hn] at hcheck
    cases x with
    | dir | symlink target => cases hcheck
    | file c => exact ⟨fs, h.openAppend_file hnul hn, Fs.Adds.refl _ fs, c, hn⟩

end Below

/-- The opened file is a regular file, reached from the real download directory through the
normal components of the remote path, and everything on the way is a real directory. -/
structure OpenedInside (fs : Fs) (downloadDir : Bytes) (remotePath : String) (file : List Name) :
    Prop where
  root : fs.symlinkMetadata downloadDir = .ok .dir
  reached : ∃ C ns, fs.Leads downloadDir C ∧ ns ≠ [] ∧
    components (Utf8.encode remotePath) = (ns.map fun n ↦ Component.normal n.val) ∧
      file = C ++ ns ∧ ∀ ms, ms <+: ns → ms ≠ ns → fs.node (C ++ ms) = some .dir
  regular : ∃ c, fs.node file = some (.file c)

/-- The location is the download directory, one of its parents, or below it. -/
def InDownloadDir (fs : Fs) (downloadDir : Bytes) (q : List Name) : Prop :=
  fs.LedToAbove downloadDir q ∨ ∃ C, fs.Leads downloadDir C ∧ Below C q

/-- What must not be downloaded: a path that is absolute, goes up, starts with a dot or has no
component, a download directory that is a link, a link or a file on the way, and a link or a
directory in the place of the target. -/
inductive Forbidden (fs : Fs) (downloadDir : Bytes) (remotePath : String) : Prop
  | absolute (h : (Utf8.encode remotePath).head? = some slash)
  | parentDir (h : .parentDir ∈ components (Utf8.encode remotePath))
  | curDir (h : (components (Utf8.encode remotePath)).head? = some .curDir)
  | empty (h : components (Utf8.encode remotePath) = [])
  | root (target : Bytes) (h : fs.symlinkMetadata downloadDir = .ok (.symlink target))
  | onTheWay (C ms ns : List Name) (x : Node) (hC : fs.Leads downloadDir C)
      (hns : components (Utf8.encode remotePath) = (ns.map fun n ↦ Component.normal n.val))
      (hms : ms <+: ns) (hne : ms ≠ ns) (hx : fs.node (C ++ ms) = some x) (hdir : x ≠ .dir)
  | target (C ns : List Name) (x : Node) (hC : fs.Leads downloadDir C)
      (hns : components (Utf8.encode remotePath) = (ns.map fun n ↦ Component.normal n.val))
      (hx : fs.node (C ++ ns) = some x) (hfile : ∀ c, x ≠ .file c)

section SetUp

variable {fs : Fs} {downloadDir : Bytes} {remotePath : String} {size : UInt64}

private theorem node_prefix_dir {C ms ns : List Name} (h : fs.node (C ++ ns) = some .dir)
    (hms : ms <+: ns) : fs.node (C ++ ms) = some .dir := by
  obtain ⟨rest, rfl⟩ := hms
  cases rest with
  | nil => rwa [List.append_nil] at h
  | cons m rest =>
    rw [← List.append_assoc] at h
    apply fs.parent (C ++ ms) m
    rw [dir_of_below h]
    rfl

/-- Setting up a download in a real directory adds entries below it only. -/
private theorem setupDownload_below (size : UInt64) {C : List Name} (hC : fs.Leads downloadDir C)
    (hroot : fs.symlinkMetadata downloadDir = .ok .dir) {ns : List Name} {n : Name}
    (hns : components (Utf8.encode remotePath) =
      ((ns ++ [n]).map fun n ↦ Component.normal n.val)) :
    fs.Adds (Below C) (setupDownload fs downloadDir remotePath size).1 ∧
      ∀ file offset, (setupDownload fs downloadDir remotePath size).2 = .ok (file, offset) →
        OpenedInside (setupDownload fs downloadDir remotePath size).1 downloadDir remotePath
          file := by
  have hpath : safeRemoteRelativePath remotePath = .ok (joinNames (ns ++ [n])) :=
    safeRemoteRelativePath_eq_ok_iff.mpr ⟨ns ++ [n], hns, rfl⟩
  have hnil : ¬ joinNames (ns ++ [n]) = [] := mt joinNames_eq_nil_iff.mp (by simp)
  obtain ⟨hadds, hleads⟩ := ensureSafeParentDirs_spec hC ns
  rw [setupDownload, hpath]
  simp only [if_neg hnil, outputPath_names hpath, components_parent, downloadRoot_dir hroot]
  split
  · next hrun =>
    rw [hrun] at hadds
    exact ⟨hadds, fun file offset h ↦ by cases h⟩
  · next fs₁ hrun =>
    rw [hrun] at hadds hleads
    have hdir := hleads rfl
    split
    · exact ⟨hadds, fun file offset h ↦ by cases h⟩
    · next hcheck =>
      obtain ⟨fs₂, hopen, hopened, c, hfile⟩ := openAppend_spec hdir hcheck
      have hall := hadds.trans (hopened.mono fun q hq ↦ by
        rw [hq, List.append_assoc]
        exact below_append C (by simp))
      rw [hopen]
      refine ⟨hall, fun file offset h ↦ ?_⟩
      cases h
      refine ⟨Fs.symlinkMetadata_grows hroot hall.grows, ⟨C, ns ++ [n], hC.grows hall.grows,
        by simp, hns, List.append_assoc C ns [n], fun ms hms hne ↦ ?_⟩, c, hfile⟩
      have hbefore : ms <+: ns := (List.prefix_concat_iff.mp hms).resolve_left hne
      exact hopened.grows.dir _ (node_prefix_dir hdir.2 hbefore)

/-- Setting up a download either refuses the path or the download root, or goes on from the
file system in which the download root is a real directory. -/
theorem setupDownload_cases (fs : Fs) (downloadDir : Bytes) (remotePath : String)
    (size : UInt64) :
    (∃ fs' e, setupDownload fs downloadDir remotePath size = (fs', .error e) ∧
        fs.Adds (fs'.LedToAbove downloadDir) fs') ∨
      ∃ fs₁, ∃ ns : List Name, ∃ n : Name, fs.Adds (fs₁.LedToAbove downloadDir) fs₁ ∧
        fs₁.symlinkMetadata downloadDir = .ok .dir ∧
        components (Utf8.encode remotePath) =
          ((ns ++ [n]).map fun m ↦ Component.normal m.val) ∧
        setupDownload fs downloadDir remotePath size =
          setupDownload fs₁ downloadDir remotePath size := by
  cases hpath : safeRemoteRelativePath remotePath with
  | error text =>
    refine Or.inl ⟨fs, .message text, ?_, Fs.Adds.refl _ fs⟩
    rw [setupDownload, hpath]
  | ok relativePath =>
    obtain ⟨ms, hms, rfl⟩ := safeRemoteRelativePath_eq_ok_iff.mp hpath
    rcases List.eq_nil_or_concat ms with rfl | ⟨ns, n, rfl⟩
    · refine Or.inl ⟨fs, .message "Remote file path is empty", ?_, Fs.Adds.refl _ fs⟩
      rw [setupDownload, hpath]
      rfl
    · rw [List.concat_eq_append] at hms hpath
      have hnil : ¬ joinNames (ns ++ [n]) = [] := mt joinNames_eq_nil_iff.mp (by simp)
      obtain ⟨hadds, hroot⟩ := ensureDownloadRoot_spec fs downloadDir
      cases hrun : ensureDownloadRoot fs downloadDir with
      | mk fs₁ result =>
        rw [hrun] at hadds hroot
        cases result with
        | error e =>
          refine Or.inl ⟨fs₁, e, ?_, hadds⟩
          rw [setupDownload, hpath]
          simp only [if_neg hnil, outputPath_names hpath, hrun]
        | ok =>
          refine Or.inr ⟨fs₁, ns, n, hadds, hroot rfl, hms, ?_⟩
          rw [setupDownload, setupDownload, hpath]
          simp only [if_neg hnil, outputPath_names hpath, hrun, downloadRoot_dir (hroot rfl)]

/-- Setting up a download adds entries of the download directory, and opens a file inside it. -/
theorem setupDownload_safe (fs : Fs) (downloadDir : Bytes) (remotePath : String)
    (size : UInt64) :
    fs.Adds (InDownloadDir (setupDownload fs downloadDir remotePath size).1 downloadDir)
        (setupDownload fs downloadDir remotePath size).1 ∧
      ∀ file offset, (setupDownload fs downloadDir remotePath size).2 = .ok (file, offset) →
        OpenedInside (setupDownload fs downloadDir remotePath size).1 downloadDir remotePath
          file := by
  rcases setupDownload_cases fs downloadDir remotePath size with
    ⟨fs', e, hrun, hadds⟩ | ⟨fs₁, ns, n, hadds, hroot, hns, hrun⟩
  · rw [hrun]
    exact ⟨hadds.mono fun q hq ↦ Or.inl hq, fun file offset h ↦ by cases h⟩
  · obtain ⟨C, hC⟩ := Fs.exists_leads_of_symlinkMetadata hroot
    obtain ⟨hbelow, hopened⟩ := setupDownload_below size hC hroot hns
    rw [hrun]
    refine ⟨?_, hopened⟩
    have hfirst := hadds.mono fun q hq ↦
      Or.inl (b := ∃ C, (setupDownload fs₁ downloadDir remotePath size).1.Leads downloadDir C ∧
        Below C q) (hq.grows hbelow.grows)
    exact hfirst.trans (hbelow.mono fun q hq ↦ Or.inr ⟨C, hC.grows hbelow.grows, hq⟩)

private theorem not_forbidden {fs' : Fs} {P : List Name → Prop} {file : List Name}
    (hadds : fs.Adds P fs') (h : OpenedInside fs' downloadDir remotePath file) :
    ¬ Forbidden fs downloadDir remotePath := by
  obtain ⟨C, ns, hC, hne, hns, rfl, hway⟩ := h.reached
  have hsame : ∀ C', fs.Leads downloadDir C' → C' = C := by
    intro C' hC'
    have hboth := (hC'.grows hadds.grows).1
    rw [hC.1] at hboth
    exact (Except.ok.inj hboth).symm
  have hnames : ∀ ns' : List Name, components (Utf8.encode remotePath) =
      (ns'.map fun n ↦ Component.normal n.val) → ns' = ns :=
    fun ns' hns' ↦ map_normal_injective (hns'.symm.trans hns)
  have hnormal : ∀ c ∈ components (Utf8.encode remotePath), ∃ n, c = .normal n := by
    intro c hc
    rw [hns] at hc
    obtain ⟨n, -, rfl⟩ := List.mem_map.mp hc
    exact ⟨n.val, rfl⟩
  intro hforbidden
  cases hforbidden with
  | absolute h =>
    obtain ⟨n, hn⟩ := hnormal _ (rootDir_mem_components h)
    cases hn
  | parentDir h =>
    obtain ⟨n, hn⟩ := hnormal _ h
    cases hn
  | curDir h =>
    obtain ⟨n, hn⟩ := hnormal _ (List.mem_of_head? h)
    cases hn
  | empty h => exact hne (hnames [] h).symm
  | root target hroot =>
    have hlink := Fs.symlinkMetadata_symlink_grows hroot hadds.grows
    rw [h.root] at hlink
    cases hlink
  | onTheWay C' ms ns' x hC' hns' hms hne' hx hdir =>
    obtain rfl := hsame C' hC'
    obtain rfl := hnames ns' hns'
    have hstays := hadds.kept hx
    rw [hway ms hms hne'] at hstays
    exact hdir (Option.some.inj hstays).symm
  | target C' ns' x hC' hns' hx hfile =>
    obtain rfl := hsame C' hC'
    obtain rfl := hnames ns' hns'
    have hstays := hadds.kept hx
    obtain ⟨c, hc⟩ := h.regular
    rw [hc] at hstays
    exact hfile c (Option.some.inj hstays).symm

/-- Setting up a download changes nothing outside the download directory, opens a file inside
it, and refuses everything that would lead out of it. -/
theorem setupDownload_confined (fs : Fs) (downloadDir : Bytes) (remotePath : String)
    (size : UInt64) :
    ∃ fs' result, setupDownload fs downloadDir remotePath size = (fs', result) ∧
      (∀ q, fs'.node q ≠ fs.node q → fs.node q = none ∧ InDownloadDir fs' downloadDir q) ∧
      (∀ file offset, result = .ok (file, offset) →
        OpenedInside fs' downloadDir remotePath file) ∧
      (Forbidden fs downloadDir remotePath → ∃ e, result = .error e) := by
  obtain ⟨hadds, hopened⟩ := setupDownload_safe fs downloadDir remotePath size
  cases hrun : setupDownload fs downloadDir remotePath size with
  | mk fs' result =>
    rw [hrun] at hadds hopened
    refine ⟨fs', result, rfl, hadds.added, hopened, fun hforbidden ↦ ?_⟩
    cases result with
    | error e => exact ⟨e, rfl⟩
    | ok opened => exact absurd hforbidden (not_forbidden hadds (hopened opened.1 opened.2 rfl))

end SetUp

end HarddriveParty
