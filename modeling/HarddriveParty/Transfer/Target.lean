import HarddriveParty.Base.UnixCreate
import HarddriveParty.Transfer.Setup

/-!
# The target of a download

When a download can be set up, and what the set-up then does: it adds the missing
directories, opens the target where the last attempt left off, and changes nothing else.
Otherwise it reports an error and the target can still not be set up. The download directory
itself is created first if it is missing.
-/

namespace HarddriveParty

open UnixPath UnixFs

/-- The directories on the way from `C` are there or can be created. -/
def Clear (fs : Fs) : List Name → List Name → Prop
  | _, [] => True
  | C, n :: ns =>
    (fs.node (C ++ [n]) = none ∨ fs.node (C ++ [n]) = some .dir) ∧ Clear fs (C ++ [n]) ns

/-- The download directory is the real directory at `C`, and neither the directories `ns`
below it nor the file `n` in the last one are in the way. -/
structure Usable (fs : Fs) (downloadDir : Bytes) (C ns : List Name) (n : Name) : Prop where
  root : fs.symlinkMetadata downloadDir = .ok .dir
  leads : fs.Leads downloadDir C
  noNul : ∀ m ∈ ns ++ [n], 0 ∉ m.val
  clear : Clear fs C ns
  free : fs.node (C ++ ns ++ [n]) = none ∨ ∃ c, fs.node (C ++ ns ++ [n]) = some (.file c)

section Parents

variable {fs : Fs} {current : Bytes} {C : List Name} {n : Name} {rest : List Component}

private theorem ensure_dir (h : fs.Leads current C) (hnul : 0 ∉ n.val)
    (hn : fs.node (C ++ [n]) = some .dir) :
    ensureExistingDirectory fs (join current n.val) = .ok () := by
  rw [ensureExistingDirectory, h.symlinkMetadata_join hnul, Fs.nodeAt, hn]

/-- An existing directory is entered. -/
theorem parents_dir (h : fs.Leads current C) (hnul : 0 ∉ n.val)
    (hn : fs.node (C ++ [n]) = some .dir) :
    ensureSafeParentDirs fs current (.normal n.val :: rest) =
      ensureSafeParentDirs fs (join current n.val) rest := by
  rw [ensureSafeParentDirs]
  simp only [h.symlinkMetadata_join hnul, Fs.nodeAt, hn, ensure_dir h hnul hn]

/-- A directory that was put at a missing entry stands there. -/
theorem node_put_self (h : fs.Leads current C) (hn : fs.node (C ++ [n]) = none) :
    (fs.put (C ++ [n]) .dir).node (C ++ [n]) = some .dir := by
  rw [Fs.node_put h.2 (by simp [hn])]
  exact if_pos rfl

/-- Putting a directory at a missing entry adds it. -/
theorem grows_put_missing (h : fs.Leads current C) (hnul : 0 ∉ n.val)
    (hn : fs.node (C ++ [n]) = none) : fs.Grows (fs.put (C ++ [n]) .dir) := by
  have hgrows := Fs.grows_createDir fs (join current n.val)
  rwa [h.createDir_join hnul hn] at hgrows

/-- A missing directory is created and entered. -/
theorem parents_missing (h : fs.Leads current C) (hnul : 0 ∉ n.val)
    (hn : fs.node (C ++ [n]) = none) :
    ensureSafeParentDirs fs current (.normal n.val :: rest) =
      ensureSafeParentDirs (fs.put (C ++ [n]) .dir) (join current n.val) rest := by
  have hensure := ensure_dir (h.grows (grows_put_missing h hnul hn)) hnul (node_put_self h hn)
  rw [ensureSafeParentDirs]
  simp only [h.symlinkMetadata_join hnul, Fs.nodeAt, hn, h.createDir_join hnul hn, hensure]

/-- A file or a link on the way is an error. -/
theorem parents_blocked (h : fs.Leads current C) (hnul : 0 ∉ n.val)
    (hn : ¬ (fs.node (C ++ [n]) = none ∨ fs.node (C ++ [n]) = some .dir)) :
    ∃ e, ensureSafeParentDirs fs current (.normal n.val :: rest) = (fs, .error e) := by
  rw [ensureSafeParentDirs]
  simp only [ensureExistingDirectory, h.symlinkMetadata_join hnul, Fs.nodeAt]
  cases hnode : fs.node (C ++ [n]) with
  | none => exact absurd (Or.inl hnode) hn
  | some x =>
    cases x with
    | dir => exact absurd (Or.inr hnode) hn
    | file c => exact ⟨_, rfl⟩
    | symlink target => exact ⟨_, rfl⟩

private theorem clear_of_none {ns : List Name} (hn : fs.node C = none) : Clear fs C ns := by
  induction ns generalizing C with
  | nil => trivial
  | cons n ns ih =>
    have hchild := Fs.node_append_of_none hn [n]
    exact ⟨Or.inl hchild, ih hchild⟩

/-- The first step on the way to a directory is a directory. -/
theorem dir_of_below {ns : List Name} (h : fs.node (C ++ n :: ns) = some .dir) :
    fs.node (C ++ [n]) = some .dir := by
  rw [List.append_cons] at h
  cases ns with
  | nil => rwa [List.append_nil] at h
  | cons m ns =>
    -- a node with entries is a directory
    apply fs.parent _ m
    rw [Option.isSome_iff_ne_none]
    intro hnone
    have hbelow := Fs.node_append_of_none hnone ns
    rw [List.append_cons] at h
    rw [h] at hbelow
    cases hbelow

private theorem clear_of_dir {ns : List Name} (h : fs.node (C ++ ns) = some .dir) :
    Clear fs C ns := by
  induction ns generalizing C with
  | nil => trivial
  | cons n ns ih =>
    have hn := dir_of_below h
    rw [List.append_cons] at h
    exact ⟨Or.inr hn, ih h⟩

/-- Where the directories are there already nothing is created. -/
theorem ensureSafeParentDirs_of_dir {ns : List Name} (h : fs.Leads current C)
    (hnul : ∀ m ∈ ns, 0 ∉ m.val) (hdir : fs.node (C ++ ns) = some .dir) :
    ensureSafeParentDirs fs current (ns.map fun m ↦ .normal m.val) = (fs, .ok ()) := by
  induction ns generalizing current C with
  | nil => rfl
  | cons n ns ih =>
    have hn := dir_of_below hdir
    have hnuln : 0 ∉ n.val := hnul n (by simp)
    rw [List.append_cons] at hdir
    rw [List.map_cons, parents_dir h hnuln hn]
    exact ih (h.enter hnuln hn) (fun m hm ↦ hnul m (by simp [hm])) hdir

/-- Where nothing is in the way the missing directories are created, and nothing else. -/
theorem ensureSafeParentDirs_of_clear {ns : List Name} (h : fs.Leads current C)
    (hnul : ∀ m ∈ ns, 0 ∉ m.val) (hclear : Clear fs C ns) :
    ∃ fs', ensureSafeParentDirs fs current (ns.map fun m ↦ .normal m.val) = (fs', .ok ()) ∧
      Fs.Grows fs fs' ∧ fs'.Leads (ns.foldl (fun q m ↦ join q m.val) current) (C ++ ns) ∧
        ∀ q, ¬ q <+: C ++ ns → fs'.node q = fs.node q := by
  induction ns generalizing fs current C with
  | nil =>
    refine ⟨fs, rfl, Fs.Grows.refl fs, ?_, fun _ _ ↦ rfl⟩
    rwa [List.append_nil]
  | cons n ns ih =>
    obtain ⟨hn, hclear⟩ := hclear
    have hnuln : 0 ∉ n.val := hnul n (by simp)
    have hnulns : ∀ m ∈ ns, 0 ∉ m.val := fun m hm ↦ hnul m (by simp [hm])
    rw [List.map_cons, List.foldl_cons, List.append_cons]
    rcases hn with hn | hn
    · have hgrows := grows_put_missing h hnuln hn
      have hself := node_put_self h hn
      have hbelow : Clear (fs.put (C ++ [n]) .dir) (C ++ [n]) ns := by
        cases ns with
        | nil => trivial
        | cons m ns =>
          have hchild := Fs.node_append_of_none hn [m]
          have hput : (fs.put (C ++ [n]) .dir).node (C ++ [n] ++ [m]) = none := by
            rw [Fs.node_put h.2 (by simp [hn]), if_neg (by simp), hchild]
          exact ⟨Or.inl hput, clear_of_none hput⟩
      obtain ⟨fs', hrun, hgrows', hleads, hframe⟩ :=
        ih ((h.grows hgrows).enter hnuln hself) hnulns hbelow
      refine ⟨fs', ?_, hgrows.trans hgrows', hleads, fun q hq ↦ ?_⟩
      · rw [parents_missing h hnuln hn, hrun]
      · rw [hframe q hq, Fs.node_put h.2 (by simp [hn]), if_neg]
        rintro rfl
        exact hq (List.prefix_append _ _)
    · obtain ⟨fs', hrun, hgrows', hleads, hframe⟩ := ih (h.enter hnuln hn) hnulns hclear
      refine ⟨fs', ?_, hgrows', hleads, hframe⟩
      rw [parents_dir h hnuln hn, hrun]

/-- Where something is in the way nothing is created. -/
theorem ensureSafeParentDirs_of_not_clear {ns : List Name} (h : fs.Leads current C)
    (hnul : ∀ m ∈ ns, 0 ∉ m.val) (hclear : ¬ Clear fs C ns) :
    ∃ e, ensureSafeParentDirs fs current (ns.map fun m ↦ .normal m.val) = (fs, .error e) := by
  induction ns generalizing current C with
  | nil => exact absurd trivial hclear
  | cons n ns ih =>
    have hnuln : 0 ∉ n.val := hnul n (by simp)
    have hnulns : ∀ m ∈ ns, 0 ∉ m.val := fun m hm ↦ hnul m (by simp [hm])
    rw [List.map_cons]
    by_cases hn : fs.node (C ++ [n]) = none ∨ fs.node (C ++ [n]) = some .dir
    · rcases hn with hn | hn
      · exact absurd ⟨Or.inl hn, clear_of_none hn⟩ hclear
      · rw [parents_dir h hnuln hn]
        exact ih (h.enter hnuln hn) hnulns fun hc ↦ hclear ⟨Or.inr hn, hc⟩
    · exact parents_blocked h hnuln hn

/-- A name with a zero byte is refused. -/
theorem symlinkMetadata_of_nul (fs : Fs) (current : Bytes) (hn : 0 ∈ n.val) :
    fs.symlinkMetadata (join current n.val) = .error .invalidInput := by
  have hz : 0 ∈ join current (joinNames [n]) := Fs.nul_join.mpr (Or.inr ⟨n, by simp, hn⟩)
  rw [joinNames_singleton] at hz
  rw [Fs.symlinkMetadata, Fs.resolve_of_nul hz]
  rfl

/-- A name with a zero byte is an error. -/
theorem ensureSafeParentDirs_of_nul {ns : List Name} (fs : Fs) (current : Bytes)
    (hnul : ∃ m ∈ ns, 0 ∈ m.val) :
    ∃ fs' e, ensureSafeParentDirs fs current (ns.map fun m ↦ .normal m.val) =
      (fs', .error e) := by
  induction ns generalizing fs current with
  | nil => simp at hnul
  | cons n ns ih =>
    rw [List.map_cons, ensureSafeParentDirs]
    by_cases hn : 0 ∈ n.val
    · simp only [symlinkMetadata_of_nul fs current hn]
      exact ⟨_, _, rfl⟩
    · have hrest : ∃ m ∈ ns, 0 ∈ m.val := by
        obtain ⟨m, hm, hz⟩ := hnul
        rcases List.mem_cons.mp hm with rfl | hm
        · exact absurd hz hn
        · exact ⟨m, hm, hz⟩
      split
      · split
        · exact ih _ _ hrest
        · exact ⟨_, _, rfl⟩
      · split
        · split
          · exact ih _ _ hrest
          · exact ⟨_, _, rfl⟩
        · split
          · exact ih _ _ hrest
          · exact ⟨_, _, rfl⟩
        · exact ⟨_, _, rfl⟩
      · exact ⟨_, _, rfl⟩

end Parents

section Grows

private theorem grows_ensureDownloadRoot (fs : Fs) (downloadDir : Bytes) :
    fs.Grows (ensureDownloadRoot fs downloadDir).1 := by
  unfold ensureDownloadRoot
  split
  · exact Fs.Grows.refl fs
  · have hall := Fs.grows_createDirAll fs downloadDir
    split
    · next hrun => rwa [hrun] at hall
    · next hrun => rwa [hrun] at hall
  · exact Fs.Grows.refl fs

private theorem grows_ensureSafeParentDirs (fs : Fs) (current : Bytes) (cs : List Component) :
    fs.Grows (ensureSafeParentDirs fs current cs).1 := by
  induction cs generalizing fs current with
  | nil => exact Fs.Grows.refl fs
  | cons c cs ih =>
    cases c with
    | rootDir | curDir | parentDir => exact Fs.Grows.refl fs
    | normal part =>
      have hcreate := Fs.grows_createDir fs (join current part)
      rw [ensureSafeParentDirs]
      split
      · split
        · exact ih fs _
        · exact Fs.Grows.refl fs
      · split
        · next hrun =>
          rw [hrun] at hcreate
          split
          · exact hcreate.trans (ih _ _)
          · exact hcreate
        · next hrun =>
          rw [hrun] at hcreate
          split
          · exact hcreate.trans (ih _ _)
          · exact hcreate
        · next hrun => rwa [hrun] at hcreate
      · exact Fs.Grows.refl fs

/-- Setting up a download only adds directories and the target. -/
theorem grows_setupDownload (fs : Fs) (downloadDir : Bytes) (remotePath : String)
    (size : UInt64) : fs.Grows (setupDownload fs downloadDir remotePath size).1 := by
  unfold setupDownload
  split
  · exact Fs.Grows.refl fs
  · split
    · exact Fs.Grows.refl fs
    · split
      · exact Fs.Grows.refl fs
      · next relativePath _ _ _ filePath _ =>
        have hroot := grows_ensureDownloadRoot fs downloadDir
        split
        · next hrun => rwa [hrun] at hroot
        · next fs₁ hrun =>
          rw [hrun] at hroot
          have hparents := grows_ensureSafeParentDirs fs₁ downloadDir
            (components ((UnixPath.parent relativePath).getD []))
          split
          · next hrun₁ =>
            rw [hrun₁] at hparents
            exact hroot.trans hparents
          · next fs₂ hrun₁ =>
            rw [hrun₁] at hparents
            split
            · exact hroot.trans hparents
            · have hopen := Fs.grows_openAppend fs₂ filePath
              split
              · next hrun₂ =>
                rw [hrun₂] at hopen
                exact (hroot.trans hparents).trans hopen
              · next hrun₂ =>
                rw [hrun₂] at hopen
                exact (hroot.trans hparents).trans hopen

/-- A download that was set up has a file, and goes on behind what is in it. -/
theorem setupDownload_ok {fs fs' : Fs} {downloadDir : Bytes} {remotePath : String} {size : UInt64}
    {file : List Name} {offset : Option UInt64}
    (h : setupDownload fs downloadDir remotePath size = (fs', .ok (file, offset))) :
    ∃ c, fs'.node file = some (.file c) ∧
      offset = startOffset (UInt64.ofNat c.length) size := by
  unfold setupDownload at h
  split at h
  · cases h
  · split at h
    · cases h
    · split at h
      · cases h
      · split at h
        · cases h
        · split at h
          · cases h
          · split at h
            · cases h
            · split at h
              · cases h
              · next hopen =>
                obtain ⟨c, hc⟩ := Fs.openAppend_ok hopen
                cases h
                refine ⟨c, hc, ?_⟩
                rw [Fs.content, hc]

end Grows

section SetUp

variable {fs : Fs} {downloadDir : Bytes} {remotePath : String} {C ns : List Name} {n : Name}

/-- The output path is the download directory joined with the names one after another. -/
theorem outputPath_names
    (hpath : safeRemoteRelativePath remotePath = .ok (joinNames (ns ++ [n]))) :
    outputPathForRemotePath downloadDir remotePath =
      .ok (join (ns.foldl (fun q m ↦ join q m.val) downloadDir) n.val) := by
  rw [outputPathForRemotePath, hpath, ← join_joinNames_concat]
  exact if_neg (mt joinNames_eq_nil_iff.mp (by simp))

/-- The directories above the target are the names before the last one. -/
theorem components_parent :
    components ((UnixPath.parent (joinNames (ns ++ [n]))).getD []) =
      ns.map fun m ↦ .normal m.val := by
  rw [parent_joinNames_concat, Option.getD_some, components_joinNames]

/-- A real download directory is accepted as it is. -/
theorem downloadRoot_dir (h : fs.symlinkMetadata downloadDir = .ok .dir) :
    ensureDownloadRoot fs downloadDir = (fs, .ok ()) := by
  rw [ensureDownloadRoot, h]
  simp only [ensureExistingDirectory, h]

/-- A download directory that is a link is refused. -/
theorem downloadRoot_symlink {target : Bytes}
    (h : fs.symlinkMetadata downloadDir = .ok (.symlink target)) :
    ∃ e, ensureDownloadRoot fs downloadDir = (fs, .error e) := by
  rw [ensureDownloadRoot, h]
  simp only [ensureExistingDirectory, h]
  exact ⟨_, rfl⟩

/-- A target that is a file stays usable while directories and files are added. -/
theorem Usable.grows (h : Usable fs downloadDir C ns n) {fs' : Fs} (hg : fs.Grows fs') {c : Bytes}
    (hfile : fs'.node (C ++ ns ++ [n]) = some (.file c)) : Usable fs' downloadDir C ns n where
  root := Fs.symlinkMetadata_grows h.root hg
  leads := h.leads.grows hg
  noNul := h.noNul
  clear := by
    apply clear_of_dir
    apply fs'.parent _ n
    rw [hfile]
    rfl
  free := Or.inr ⟨c, hfile⟩

/-- Setting up a usable target opens it and keeps its content. -/
theorem setupDownload_of_usable (h : Usable fs downloadDir C ns n)
    (hpath : safeRemoteRelativePath remotePath = .ok (joinNames (ns ++ [n]))) (size : UInt64) :
    ∃ fs', setupDownload fs downloadDir remotePath size =
        (fs', .ok (C ++ ns ++ [n],
          startOffset (UInt64.ofNat (fs.content (C ++ ns ++ [n])).length) size)) ∧
      fs'.node (C ++ ns ++ [n]) = some (.file (fs.content (C ++ ns ++ [n]))) ∧
        Usable fs' downloadDir C ns n := by
  have hnul : 0 ∉ n.val := h.noNul n (by simp)
  obtain ⟨fs₁, hparents, hgrows, hleads, hframe⟩ :=
    ensureSafeParentDirs_of_clear h.leads (fun m hm ↦ h.noNul m (by simp [hm])) h.clear
  have hnode : fs₁.node (C ++ ns ++ [n]) = fs.node (C ++ ns ++ [n]) :=
    hframe _ fun hp ↦ by simpa using hp.length_le
  have hmeta := hleads.symlinkMetadata_join hnul
  have hrun : ∀ fs', fs₁.openAppend (join (ns.foldl (fun q m ↦ join q m.val) downloadDir) n.val) =
        (fs', .ok (C ++ ns ++ [n])) → rejectExistingSymlinkOrDirectory fs₁
          (join (ns.foldl (fun q m ↦ join q m.val) downloadDir) n.val) = .ok () →
      setupDownload fs downloadDir remotePath size =
        (fs', .ok (C ++ ns ++ [n],
          startOffset (UInt64.ofNat (fs'.content (C ++ ns ++ [n])).length) size)) := by
    intro fs' hopen hreject
    rw [setupDownload, hpath]
    simp only [outputPath_names hpath, components_parent, downloadRoot_dir h.root, hparents,
      hreject, hopen]
    exact if_neg (mt joinNames_eq_nil_iff.mp (by simp))
  rcases h.free with hfree | ⟨c, hfree⟩
  · have hcontent : fs.content (C ++ ns ++ [n]) = [] := by rw [Fs.content, hfree]
    have hmissing : fs₁.node (C ++ ns ++ [n]) = none := by rw [hnode, hfree]
    have hput : (fs₁.put (C ++ ns ++ [n]) (.file [])).node (C ++ ns ++ [n]) =
        some (.file []) := by
      rw [Fs.node_put hleads.2 (by rw [hmissing]; simp)]
      exact if_pos rfl
    refine ⟨fs₁.put (C ++ ns ++ [n]) (.file []), ?_, ?_, ?_⟩
    · rw [hrun _ (hleads.openAppend_missing hnul hmissing), Fs.content, hput, hcontent]
      rw [rejectExistingSymlinkOrDirectory, hmeta, Fs.nodeAt, hmissing]
    · rw [hput, hcontent]
    · have hopen := Fs.grows_openAppend fs₁
        (join (ns.foldl (fun q m ↦ join q m.val) downloadDir) n.val)
      rw [hleads.openAppend_missing hnul hmissing] at hopen
      exact h.grows (hgrows.trans hopen) hput
  · have hcontent : fs.content (C ++ ns ++ [n]) = c := by rw [Fs.content, hfree]
    have hfile : fs₁.node (C ++ ns ++ [n]) = some (.file c) := by rw [hnode, hfree]
    refine ⟨fs₁, ?_, ?_, ?_⟩
    · rw [hrun _ (hleads.openAppend_file hnul hfile), Fs.content, hfile, hcontent]
      rw [rejectExistingSymlinkOrDirectory, hmeta, Fs.nodeAt, hfile]
    · rw [hfile, hcontent]
    · exact h.grows hgrows hfile

/-- A name of the target with a zero byte is refused. -/
private theorem setupDownload_of_nul_target (hC : fs.Leads downloadDir C)
    (hroot : fs.symlinkMetadata downloadDir = .ok .dir) (hnul : ∀ m ∈ ns, 0 ∉ m.val)
    (hclear : Clear fs C ns) (hn : 0 ∈ n.val)
    (hpath : safeRemoteRelativePath remotePath = .ok (joinNames (ns ++ [n]))) (size : UInt64) :
    ∃ fs' e, setupDownload fs downloadDir remotePath size = (fs', .error e) := by
  obtain ⟨fs₁, hparents, -, -, -⟩ := ensureSafeParentDirs_of_clear hC hnul hclear
  have hmeta := symlinkMetadata_of_nul fs₁ (ns.foldl (fun q m ↦ join q m.val) downloadDir) hn
  have hnil : ¬ joinNames (ns ++ [n]) = [] := mt joinNames_eq_nil_iff.mp (by simp)
  refine ⟨fs₁, .io .invalidInput, ?_⟩
  rw [setupDownload, hpath]
  simp only [if_neg hnil, outputPath_names hpath, components_parent, downloadRoot_dir hroot,
    hparents, rejectExistingSymlinkOrDirectory, hmeta]

/-- A directory or link in the place of the target is left alone. -/
private theorem setupDownload_of_blocked (hC : fs.Leads downloadDir C)
    (hroot : fs.symlinkMetadata downloadDir = .ok .dir) (hnul : ∀ m ∈ ns, 0 ∉ m.val)
    (hclear : Clear fs C ns) (hn : 0 ∉ n.val) (hblocked : ¬ (fs.node (C ++ ns ++ [n]) = none ∨
      ∃ c, fs.node (C ++ ns ++ [n]) = some (.file c)))
    (hpath : safeRemoteRelativePath remotePath = .ok (joinNames (ns ++ [n]))) (size : UInt64) :
    ∃ e, setupDownload fs downloadDir remotePath size = (fs, .error e) := by
  have hdir : fs.node (C ++ ns) = some .dir := by
    apply fs.parent _ n
    rw [Option.isSome_iff_ne_none]
    exact fun hnone ↦ hblocked (Or.inl hnone)
  have hparents := ensureSafeParentDirs_of_dir hC hnul hdir
  obtain ⟨fs₁, hparents', -, hleads, -⟩ := ensureSafeParentDirs_of_clear hC hnul hclear
  rw [hparents] at hparents'
  cases hparents'
  have hmeta := hleads.symlinkMetadata_join hn
  have hnil : ¬ joinNames (ns ++ [n]) = [] := mt joinNames_eq_nil_iff.mp (by simp)
  rw [setupDownload, hpath]
  simp only [if_neg hnil, outputPath_names hpath, components_parent, downloadRoot_dir hroot,
    hparents, rejectExistingSymlinkOrDirectory, hmeta, Fs.nodeAt]
  cases hx : fs.node (C ++ ns ++ [n]) with
  | none => exact absurd (Or.inl hx) hblocked
  | some x =>
    cases x with
    | dir => exact ⟨_, rfl⟩
    | file c => exact absurd (Or.inr ⟨c, hx⟩) hblocked
    | symlink target => exact ⟨_, rfl⟩

/-- Where the target is not usable the set-up reports an error. It changes nothing, or a name
has a zero byte. -/
theorem setupDownload_of_not_usable (hC : fs.Leads downloadDir C)
    (h : ¬ Usable fs downloadDir C ns n)
    (hpath : safeRemoteRelativePath remotePath = .ok (joinNames (ns ++ [n]))) (size : UInt64) :
    ∃ fs' e, setupDownload fs downloadDir remotePath size = (fs', .error e) ∧
      (fs' = fs ∨ ∃ m ∈ ns ++ [n], 0 ∈ m.val) := by
  have hnil : ¬ joinNames (ns ++ [n]) = [] := mt joinNames_eq_nil_iff.mp (by simp)
  rcases hC.symlinkMetadata_cases with hroot | ⟨target, hroot⟩
  · have hroot' := downloadRoot_dir hroot
    by_cases hnul : ∃ m ∈ ns, 0 ∈ m.val
    · obtain ⟨fs', e, he⟩ := ensureSafeParentDirs_of_nul fs downloadDir hnul
      obtain ⟨m, hm, hz⟩ := hnul
      refine ⟨fs', e, ?_, Or.inr ⟨m, by simp [hm], hz⟩⟩
      rw [setupDownload, hpath]
      simp only [if_neg hnil, outputPath_names hpath, components_parent, hroot', he]
    have hnulns : ∀ m ∈ ns, 0 ∉ m.val := fun m hm hz ↦ hnul ⟨m, hm, hz⟩
    by_cases hclear : Clear fs C ns
    · by_cases hn : 0 ∈ n.val
      · obtain ⟨fs', e, he⟩ := setupDownload_of_nul_target hC hroot hnulns hclear hn hpath size
        exact ⟨fs', e, he, Or.inr ⟨n, by simp, hn⟩⟩
      · have hfull : ∀ m ∈ ns ++ [n], 0 ∉ m.val := by
          intro m hm
          rcases List.mem_append.mp hm with hm | hm
          · exact hnulns m hm
          · rwa [List.mem_singleton.mp hm]
        obtain ⟨e, he⟩ := setupDownload_of_blocked hC hroot hnulns hclear hn
          (fun hfree ↦ h ⟨hroot, hC, hfull, hclear, hfree⟩) hpath size
        exact ⟨fs, e, he, Or.inl rfl⟩
    · obtain ⟨e, he⟩ := ensureSafeParentDirs_of_not_clear hC hnulns hclear
      refine ⟨fs, e, ?_, Or.inl rfl⟩
      rw [setupDownload, hpath]
      simp only [if_neg hnil, outputPath_names hpath, components_parent, hroot', he]
  · obtain ⟨e, he⟩ := downloadRoot_symlink hroot
    refine ⟨fs, e, ?_, Or.inl rfl⟩
    rw [setupDownload, hpath]
    simp only [if_neg hnil, outputPath_names hpath, he]

private theorem read_of_clear {path : Bytes} (h : fs.Leads path C)
    (hnul : ∀ m ∈ ns ++ [n], 0 ∉ m.val) (hclear : Clear fs C ns)
    (hfree : fs.node (C ++ ns ++ [n]) = none ∨ ∃ c, fs.node (C ++ ns ++ [n]) = some (.file c)) :
    (fs.read (join path (joinNames (ns ++ [n])))).toOption =
      match fs.node (C ++ ns ++ [n]) with
      | some (.file c) => some c
      | _ => none := by
  induction ns generalizing path C with
  | nil =>
    have hn : 0 ∉ n.val := hnul n (by simp)
    rw [List.append_nil] at hfree ⊢
    rw [List.nil_append, joinNames_singleton]
    rcases hfree with hfree | ⟨c, hfree⟩
    · rw [h.read_missing hn hfree, hfree]
      rfl
    · rw [h.read_join hn hfree, hfree]
      rfl
  | cons m ns ih =>
    obtain ⟨hm, hclear⟩ := hclear
    have hassoc : C ++ m :: ns ++ [n] = C ++ [m] ++ ns ++ [n] := by simp
    rw [hassoc] at hfree ⊢
    rcases hm with hm | hm
    · have hmissing :=
        h.read_below_missing (List.append_ne_nil_of_right_ne_nil ns (by simp)) hnul hm
      rw [List.append_assoc (C ++ [m]), Fs.node_append_of_none hm]
      exact congrArg Except.toOption hmissing
    · rw [List.cons_append, join_joinNames_cons path m (by simp)]
      exact ih (h.enter (hnul m (by simp)) hm) (fun k hk ↦ hnul k (by simp [hk])) hclear hfree

end SetUp

/-- The content of the local file that a remote path is downloaded to. -/
def localFile (fs : Fs) (downloadDir : Bytes) (remotePath : String) : Option Bytes :=
  match outputPathForRemotePath downloadDir remotePath with
  | .error _ => none
  | .ok filePath => (fs.read filePath).toOption

/-- Nothing is in the way of a download of the remote path. -/
def CanSetUp (fs : Fs) (downloadDir : Bytes) (remotePath : String) : Prop :=
  ∃ C ns n, safeRemoteRelativePath remotePath = .ok (joinNames (ns ++ [n])) ∧
    Usable fs downloadDir C ns n

section LocalFile

variable {fs : Fs} {downloadDir : Bytes} {remotePath : String} {C ns : List Name} {n : Name}

/-- A usable target is the local file. -/
theorem Usable.localFile (h : Usable fs downloadDir C ns n)
    (hpath : safeRemoteRelativePath remotePath = .ok (joinNames (ns ++ [n]))) :
    localFile fs downloadDir remotePath =
      match fs.node (C ++ ns ++ [n]) with
      | some (.file c) => some c
      | _ => none := by
  rw [HarddriveParty.localFile, outputPath_names hpath, ← join_joinNames_concat]
  exact read_of_clear h.leads h.noNul h.clear h.free

/-- A usable target holds the bytes of the local file. -/
theorem Usable.content (h : Usable fs downloadDir C ns n)
    (hpath : safeRemoteRelativePath remotePath = .ok (joinNames (ns ++ [n]))) :
    fs.content (C ++ ns ++ [n]) = (HarddriveParty.localFile fs downloadDir remotePath).getD [] := by
  rw [h.localFile hpath, Fs.content]
  rcases h.free with hfree | ⟨c, hfree⟩
  · rw [hfree]
    rfl
  · rw [hfree]
    rfl

/-- What cannot be set up is an error, and its local file stays as it is. -/
theorem setupDownload_of_not_canSetUp (hdir : fs.metadata downloadDir = .ok .dir)
    (h : ¬ CanSetUp fs downloadDir remotePath) (size : UInt64) :
    ∃ fs' e, setupDownload fs downloadDir remotePath size = (fs', .error e) ∧
      localFile fs' downloadDir remotePath = localFile fs downloadDir remotePath := by
  cases hpath : safeRemoteRelativePath remotePath with
  | error text =>
    refine ⟨fs, .message text, ?_, rfl⟩
    rw [setupDownload, hpath]
  | ok relativePath =>
    obtain ⟨ms, rfl⟩ := exists_joinNames_of_safeRemoteRelativePath hpath
    rcases List.eq_nil_or_concat ms with rfl | ⟨ns, n, rfl⟩
    · refine ⟨fs, .message "Remote file path is empty", ?_, rfl⟩
      rw [setupDownload, hpath]
      rfl
    · rw [List.concat_eq_append] at hpath
      obtain ⟨C, hC⟩ := Fs.exists_leads_of_metadata hdir
      have hnot : ¬ Usable fs downloadDir C ns n := fun hu ↦ h ⟨C, ns, n, hpath, hu⟩
      obtain ⟨fs', e, hrun, hsame⟩ := setupDownload_of_not_usable hC hnot hpath size
      refine ⟨fs', e, hrun, ?_⟩
      rcases hsame with rfl | hnul
      · rfl
      · have hz : 0 ∈ join downloadDir (joinNames (ns ++ [n])) := Fs.nul_join.mpr (Or.inr hnul)
        rw [localFile, localFile, outputPath_names hpath, ← join_joinNames_concat]
        simp only [Fs.read_of_nul hz]

end LocalFile

/-- The file system once the download directory has been ensured to be there, as far as it can be
created. -/
def withDownloadRoot (fs : Fs) (downloadDir : Bytes) : Fs := (ensureDownloadRoot fs downloadDir).1

section Root

variable {fs fs' : Fs} {downloadDir : Bytes} {remotePath : String}

private theorem ensureExisting_ok (h : ensureExistingDirectory fs downloadDir = .ok ()) :
    fs.symlinkMetadata downloadDir = .ok .dir := by
  unfold ensureExistingDirectory at h
  split at h
  · cases h
  · cases h
  · cases h
  · next hdir => exact hdir

/-- Where the download root is accepted it is a real directory, and only it and its parents
were created. -/
theorem ensureDownloadRoot_spec (fs : Fs) (downloadDir : Bytes) :
    fs.Adds ((ensureDownloadRoot fs downloadDir).1.LedToAbove downloadDir)
        (ensureDownloadRoot fs downloadDir).1 ∧
      ((ensureDownloadRoot fs downloadDir).2 = .ok () →
        (ensureDownloadRoot fs downloadDir).1.symlinkMetadata downloadDir = .ok .dir) := by
  unfold ensureDownloadRoot
  split
  · exact ⟨Fs.Adds.refl _ fs, ensureExisting_ok⟩
  · have hall := Fs.adds_createDirAll fs downloadDir
    split
    · next fs' hrun =>
      rw [hrun] at hall
      exact ⟨hall, ensureExisting_ok⟩
    · next hrun =>
      rw [hrun] at hall
      exact ⟨hall, fun h ↦ by cases h⟩
  · exact ⟨Fs.Adds.refl _ fs, fun h ↦ by cases h⟩

/-- A path that leads to no directory is no download root. -/
private theorem downloadRoot_of_not_isDir (hdir : fs.isDir downloadDir = false)
    (hcreate : ∃ e, fs.createDirAll downloadDir = (fs, .error e)) :
    ∃ e, ensureDownloadRoot fs downloadDir = (fs, .error e) := by
  obtain ⟨e, he⟩ := hcreate
  unfold ensureDownloadRoot
  split
  · cases hensure : ensureExistingDirectory fs downloadDir with
    | error e => exact ⟨e, rfl⟩
    | ok u =>
      have hleads := Fs.exists_leads_of_symlinkMetadata (ensureExisting_ok hensure)
      rw [Fs.isDir_iff.mpr hleads] at hdir
      cases hdir
  · rw [he]
    exact ⟨_, rfl⟩
  · exact ⟨_, rfl⟩

/-- A download root that was not accepted is not accepted again, and nothing more is created. -/
theorem ensureDownloadRoot_again {e : TransferError}
    (h : ensureDownloadRoot fs downloadDir = (fs', .error e)) :
    ∃ e', ensureDownloadRoot fs' downloadDir = (fs', .error e') := by
  by_cases hsame : fs' = fs
  · subst hsame
    exact ⟨e, h⟩
  unfold ensureDownloadRoot at h
  split at h
  · exact absurd (Prod.mk.inj h).1.symm hsame
  · split at h
    · next fs₁ hrun =>
      obtain ⟨rfl, hensure⟩ := Prod.mk.inj h
      have hpath : downloadDir ≠ [] := by
        rintro rfl
        cases hrun
        exact hsame rfl
      obtain ⟨C, hC⟩ := Fs.isDir_iff.mp (Fs.createDirAll_ok hpath hrun)
      rcases hC.symlinkMetadata_cases with hroot | ⟨target, hroot⟩
      · rw [ensureExistingDirectory, hroot] at hensure
        cases hensure
      · exact downloadRoot_symlink hroot
    · next hrun =>
      cases h
      obtain ⟨hdir, hagain⟩ := Fs.createDirAll_again hrun
      exact downloadRoot_of_not_isDir (hdir.resolve_left hsame) hagain
  · cases h
    exact absurd rfl hsame

/-- The download root is accepted exactly if it then is a real directory. -/
theorem ensureDownloadRoot_cases (fs : Fs) (downloadDir : Bytes) :
    ensureDownloadRoot fs downloadDir = (withDownloadRoot fs downloadDir, .ok ()) ∧
        (withDownloadRoot fs downloadDir).symlinkMetadata downloadDir = .ok .dir ∨
      ∃ e, ensureDownloadRoot fs downloadDir = (withDownloadRoot fs downloadDir, .error e) ∧
        (withDownloadRoot fs downloadDir).symlinkMetadata downloadDir ≠ .ok .dir := by
  have hspec := (ensureDownloadRoot_spec fs downloadDir).2
  unfold withDownloadRoot
  cases hrun : ensureDownloadRoot fs downloadDir with
  | mk fs₁ result =>
    rw [hrun] at hspec
    cases result with
    | ok u => exact Or.inl ⟨rfl, hspec rfl⟩
    | error e =>
      obtain ⟨e', hagain⟩ := ensureDownloadRoot_again hrun
      refine Or.inr ⟨e, rfl, fun hdir ↦ ?_⟩
      rw [downloadRoot_dir hdir] at hagain
      cases hagain

/-- A file system in which the download root is a real directory is left as it is. -/
theorem withDownloadRoot_of_dir (h : fs.symlinkMetadata downloadDir = .ok .dir) :
    withDownloadRoot fs downloadDir = fs := by
  rw [withDownloadRoot, downloadRoot_dir h]

/-- The download root is ensured once and for all. -/
theorem withDownloadRoot_idem (fs : Fs) (downloadDir : Bytes) :
    withDownloadRoot (withDownloadRoot fs downloadDir) downloadDir =
      withDownloadRoot fs downloadDir := by
  rcases ensureDownloadRoot_cases fs downloadDir with ⟨-, hdir⟩ | ⟨e, hrun, -⟩
  · exact withDownloadRoot_of_dir hdir
  · obtain ⟨e', hagain⟩ := ensureDownloadRoot_again hrun
    rw [withDownloadRoot, hagain]

/-- What can be read before the download root is ensured can be read afterwards. -/
theorem localFile_withDownloadRoot {c : Bytes}
    (h : localFile fs downloadDir remotePath = some c) :
    localFile (withDownloadRoot fs downloadDir) downloadDir remotePath = some c := by
  unfold localFile at h ⊢
  cases hpath : outputPathForRemotePath downloadDir remotePath with
  | error e =>
    rw [hpath] at h
    cases h
  | ok filePath =>
    simp only [hpath] at h ⊢
    cases hread : fs.read filePath with
    | error e =>
      rw [hread] at h
      cases h
    | ok b =>
      rw [withDownloadRoot, (ensureDownloadRoot_spec fs downloadDir).1.read hread, ← hread]
      exact h

section Names

variable {ns : List Name} {n : Name}
  (hpath : safeRemoteRelativePath remotePath = .ok (joinNames (ns ++ [n])))
include hpath

/-- A download root that is not accepted is an error. -/
private theorem setupDownload_of_not_root
    (hdir : (withDownloadRoot fs downloadDir).symlinkMetadata downloadDir ≠ .ok .dir)
    (size : UInt64) : ∃ e, setupDownload fs downloadDir remotePath size =
      (withDownloadRoot fs downloadDir, .error e) := by
  obtain ⟨e, hrun, -⟩ :=
    (ensureDownloadRoot_cases fs downloadDir).resolve_left fun h ↦ hdir h.2
  have hnil : ¬ joinNames (ns ++ [n]) = [] := mt joinNames_eq_nil_iff.mp (by simp)
  refine ⟨e, ?_⟩
  rw [setupDownload, hpath]
  simp only [if_neg hnil, outputPath_names hpath, hrun]

/-- A download is set up from the file system with the download root. -/
private theorem setupDownload_of_root
    (hdir : (withDownloadRoot fs downloadDir).symlinkMetadata downloadDir = .ok .dir)
    (size : UInt64) : setupDownload fs downloadDir remotePath size =
      setupDownload (withDownloadRoot fs downloadDir) downloadDir remotePath size := by
  have hrun : ensureDownloadRoot fs downloadDir = (withDownloadRoot fs downloadDir, .ok ()) := by
    rcases ensureDownloadRoot_cases fs downloadDir with ⟨hrun, -⟩ | ⟨e, -, hnot⟩
    · exact hrun
    · exact absurd hdir hnot
  have hnil : ¬ joinNames (ns ++ [n]) = [] := mt joinNames_eq_nil_iff.mp (by simp)
  rw [setupDownload, setupDownload, hpath]
  simp only [if_neg hnil, outputPath_names hpath, hrun, downloadRoot_dir hdir]

end Names

/-- A target that can be set up once the download root is there is set up from there. -/
theorem setupDownload_of_canSetUp_root
    (h : CanSetUp (withDownloadRoot fs downloadDir) downloadDir remotePath) (size : UInt64) :
    setupDownload fs downloadDir remotePath size =
      setupDownload (withDownloadRoot fs downloadDir) downloadDir remotePath size := by
  obtain ⟨C, ns, n, hpath, husable⟩ := h
  exact setupDownload_of_root hpath husable.root size

/-- What cannot be set up even with the download root there is an error, and its local file stays
as it is. -/
theorem setupDownload_of_not_canSetUp_root
    (h : ¬ CanSetUp (withDownloadRoot fs downloadDir) downloadDir remotePath) (size : UInt64) :
    ∃ fs' e, setupDownload fs downloadDir remotePath size = (fs', .error e) ∧
      (∀ c, localFile fs' downloadDir remotePath = some c →
        localFile (withDownloadRoot fs downloadDir) downloadDir remotePath = some c) ∧
        localFile (withDownloadRoot fs' downloadDir) downloadDir remotePath =
          localFile (withDownloadRoot fs downloadDir) downloadDir remotePath := by
  cases hpath : safeRemoteRelativePath remotePath with
  | error text =>
    refine ⟨fs, .message text, ?_, fun c ↦ localFile_withDownloadRoot, rfl⟩
    rw [setupDownload, hpath]
  | ok relativePath =>
    obtain ⟨ms, rfl⟩ := exists_joinNames_of_safeRemoteRelativePath hpath
    rcases List.eq_nil_or_concat ms with rfl | ⟨ns, n, rfl⟩
    · refine ⟨fs, .message "Remote file path is empty", ?_, fun c ↦ localFile_withDownloadRoot, rfl⟩
      rw [setupDownload, hpath]
      rfl
    · rw [List.concat_eq_append] at hpath
      by_cases hdir : (withDownloadRoot fs downloadDir).symlinkMetadata downloadDir = .ok .dir
      · obtain ⟨C, hC⟩ := Fs.exists_leads_of_symlinkMetadata hdir
        have hmeta : (withDownloadRoot fs downloadDir).metadata downloadDir = .ok .dir :=
          of_decide_eq_true (Fs.isDir_iff.mpr ⟨C, hC⟩)
        obtain ⟨fs', e, hrun, hsame⟩ := setupDownload_of_not_canSetUp hmeta h size
        have hgrows := grows_setupDownload (withDownloadRoot fs downloadDir) downloadDir remotePath
          size
        rw [hrun] at hgrows
        refine ⟨fs', e, (setupDownload_of_root hpath hdir size).trans hrun, ?_, ?_⟩
        · intro c hc
          rwa [← hsame]
        · rwa [withDownloadRoot_of_dir (Fs.symlinkMetadata_grows hdir hgrows)]
      · obtain ⟨e, he⟩ := setupDownload_of_not_root hpath hdir size
        refine ⟨_, e, he, fun c hc ↦ hc, ?_⟩
        rw [withDownloadRoot_idem]

end Root

end HarddriveParty
