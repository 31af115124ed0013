import HarddriveParty.Shares.Runs

/-!
# The index refines the shares

After any run of scans and removals the three trees say what the shares contain: the file
tree is the disjoint union of the visited files, the directory tree holds the directories
above them with exact cumulative sizes, and removing a share never underflows the root.
-/

namespace HarddriveParty

open UnixPath OrderedTree

/-- The file tree is the disjoint union over the shares of the files visited. -/
structure FilesExact (s : Shares) (v : View) : Prop where
  shares : ∀ name, s.shareNames[Utf8.encode name]?.isSome ↔ (v name).isSome
  files : ∀ k b, s.files[k]? = some b ↔
    ∃ name rel size, v.Visited name rel size ∧ k = sharePath name rel ∧ b = Bytes.leU64 size
  disjoint : ∀ name name' rel rel' size size', v.Visited name rel size →
    v.Visited name' rel' size' → sharePath name rel = sharePath name' rel' →
    name = name' ∧ rel = rel' ∧ size = size'

/-- Except for the root the keys of the directory tree are the proper ancestors of the
files, and every key holds the sum of the sizes of the files below it. -/
structure DirsExact (s : Shares) : Prop where
  keys : ∀ d, d ≠ [] →
    (s.dirs[d]?.isSome ↔ ∃ f, s.files[f]?.isSome ∧ d ∈ (ancestors f).tail)
  sizes : ∀ d b, s.dirs[d]? = some b →
    ∃ size : UInt64, b = Bytes.leU64 size ∧ size.toNat = sizeBelow s.files d

/-- The subtraction of `removeShareDir` has no underflow, for any name. -/
def RemovalSafe (s : Shares) : Prop :=
  ∀ shareName existingSize, s.getDirSize shareName = some existingSize →
    ∃ rootSize, s.dirs[([] : Bytes)]? = some (Bytes.leU64 rootSize) ∧ existingSize ≤ rootSize

/-- Every entry of a share other than the given one is as it was. -/
def KeepsOthers (s s' : Shares) (shareName : String) : Prop :=
  ∀ other, other ≠ shareName → s.shareNames[Utf8.encode other]?.isSome →
    ∀ k, StartsWith k (Utf8.encode other) → s'.files[k]? = s.files[k]? ∧ s'.dirs[k]? = s.dirs[k]?

private theorem mem_tail_ancestors {ns : List Name} (hns : ns ≠ []) (d : Bytes) :
    d ∈ (ancestors (joinNames ns)).tail ↔
      ∃ ms, d = joinNames ms ∧ IsAncestor (joinNames ms) (joinNames ns) := by
  have hsplit : (ancestors (joinNames ns)).tail = ancestors (joinNames ns.dropLast) := by
    rw [ancestors_joinNames, ancestors_joinNames]
    conv_lhs => rw [← List.dropLast_append_getLast hns, List.inits_append]
    simp
  rw [hsplit]
  constructor
  · intro hd
    have hd' := hd
    rw [ancestors_joinNames, List.mem_map] at hd'
    obtain ⟨ms, -, rfl⟩ := hd'
    exact ⟨ms, rfl, (mem_ancestors_dropLast hns).mp hd⟩
  · rintro ⟨ms, rfl, ha⟩
    exact (mem_ancestors_dropLast hns).mpr ha

/-- A consistent index has exactly the visited files. -/
theorem Consistent.filesExact {s : Shares} {v : View} (h : Consistent s v) : FilesExact s v where
  shares := by
    intro name
    rw [h.names]
    constructor
    · rintro ⟨name', he, hv⟩
      rwa [Utf8.encode_inj.mp he]
    · exact fun hv ↦ ⟨name, rfl, hv⟩
  files := h.files
  disjoint := fun _ _ _ _ _ _ hv hv' hk ↦ h.visited_unique hv hv' hk

/-- A consistent index has exact directory sizes as long as these fit. -/
theorem Consistent.dirsExact {s : Shares} {v : View} (h : Consistent s v)
    (hsum : totalSize s.files < 2 ^ 64) : DirsExact s where
  keys := by
    intro d hd
    constructor
    · intro hs
      obtain ⟨ms, rfl⟩ := h.dirs.keys d hs
      obtain ⟨f, hf, ha⟩ := h.dirs.needed ms (joinNames_eq_nil_iff.not.mp hd) hs
      obtain ⟨ns, hlen, rfl⟩ := h.filesInShares f hf
      refine ⟨joinNames ns, hf, (mem_tail_ancestors ?_ _).mpr ⟨ms, rfl, ha⟩⟩
      rintro rfl
      simp at hlen
    · rintro ⟨f, hf, hmem⟩
      obtain ⟨ns, hlen, rfl⟩ := h.filesInShares f hf
      obtain ⟨ms, rfl, ha⟩ := (mem_tail_ancestors (by rintro rfl; simp at hlen) d).mp hmem
      exact h.dirs.present ms ⟨joinNames ns, hf, ha⟩
  sizes := by
    intro d b hb
    refine ⟨_, h.dirs.size d b hb, ?_⟩
    rw [UInt64.toNat_ofNat']
    exact Nat.mod_eq_of_lt (Nat.lt_of_le_of_lt (sizeBelow_le_totalSize _ _) hsum)

/-- In a consistent index a directory is never larger than the root. -/
theorem Consistent.removalSafe {s : Shares} {v : View} (h : Consistent s v)
    (hsum : totalSize s.files < 2 ^ 64) : RemovalSafe s := by
  intro shareName existingSize hget
  obtain ⟨b, hb, hread⟩ := Option.bind_eq_some_iff.mp hget
  obtain ⟨size, rfl, hsize⟩ := (h.dirsExact hsum).sizes _ b hb
  rw [Bytes.readLeU64_leU64] at hread
  cases hread
  obtain ⟨ms, hms⟩ := h.dirs.keys _ (by rw [hb]; rfl)
  have hroot : ∃ r, s.dirs[([] : Bytes)]? = some r := by
    by_cases hne : ms = []
    · subst hne
      rw [hms] at hb
      exact ⟨_, hb⟩
    · obtain ⟨f, hf, -⟩ := h.dirs.needed ms hne (by rw [← hms, hb]; rfl)
      obtain ⟨ns, hlen, rfl⟩ := h.filesInShares f hf
      refine Option.isSome_iff_exists.mp (h.dirs.present [] ⟨joinNames ns, hf, ?_⟩)
      rw [joinNames_nil, isAncestor_nil]
      rintro rfl
      simp at hlen
  obtain ⟨r, hr⟩ := hroot
  obtain ⟨rootSize, rfl, hrootSize⟩ := (h.dirsExact hsum).sizes _ r hr
  refine ⟨rootSize, hr, UInt64.le_iff_toNat_le.mpr ?_⟩
  rw [hsize, hrootSize]
  refine weight_mono fun f value hf ↦ ?_
  obtain ⟨ns, hlen, rfl⟩ := h.filesInShares f (by rw [hf]; rfl)
  have hanc : IsAncestor [] (joinNames ns) := by
    rw [isAncestor_nil]
    rintro rfl
    simp at hlen
  rw [if_pos hanc]
  split
  · exact Nat.le_refl _
  · exact Nat.zero_le _

/-- A scan changes the entries of its own share only. -/
theorem Consistent.scan_keepsOthers {s : Shares} {v : View} (h : Consistent s v) (root : String)
    {t : DirTree} (w : Walk t) {shareName : String}
    (hname : Shares.shareNameForPath s.shareNames root = .ok shareName) :
    KeepsOthers s (s.scan root w.items).1 shareName := by
  intro other hne hother k hk
  refine h.entries_of_share (h.scan root w) (h.isName_key hother) ?_ hk
  rw [View.scanned, hname]
  exact View.set_of_ne v hne _

/-- A removal changes the entries of its own share only. -/
theorem Consistent.remove_keepsOthers {s : Shares} {v : View} (h : Consistent s v)
    {shareName : String} (hname : s.shareNames[Utf8.encode shareName]?.isSome) :
    KeepsOthers s (s.removeShareDir shareName).1 shareName := by
  intro other hne hother k hk
  refine h.entries_of_share (h.remove hname) (h.isName_key hother) ?_ hk
  rcases (s.removeShareDir shareName).2 with e | u
  · rfl
  · exact View.set_of_ne v hne _

/-- After every run of scans and removals whose files have sizes that add up to a `u64`,
the index says exactly what the shares contain, no removal underflows, and the next scan or
removal of one share keeps the entries of the others. -/
theorem index_refines_shares {s : Shares} {v : View} (h : Reachable s v)
    (hsum : totalSize s.files < 2 ^ 64) :
    FilesExact s v ∧ DirsExact s ∧ RemovalSafe s ∧
      (∀ root (t : DirTree) (w : Walk t) shareName,
        Shares.shareNameForPath s.shareNames root = .ok shareName →
          KeepsOthers s (s.scan root w.items).1 shareName) ∧
      ∀ shareName, s.shareNames[Utf8.encode shareName]?.isSome →
        KeepsOthers s (s.removeShareDir shareName).1 shareName := by
  have hc := h.consistent
  exact ⟨hc.filesExact, hc.dirsExact hsum, hc.removalSafe hsum,
    fun root _ w _ hname ↦ hc.scan_keepsOthers root w hname,
    fun _ hname ↦ hc.remove_keepsOthers hname⟩

/-- A directory that holds one file. -/
def DirTree.oneFile (name : Name) (len : UInt64) : DirTree where
  entries := [([name], ⟨false, len⟩)]
  nodup := by simp
  ne_nil := by simp
  closed := by simp

/-- The complete walk of such a directory. -/
def Walk.oneFile (name : Name) (len : UInt64) : Walk (DirTree.oneFile name len) where
  items := [.entry [name] (.ok ⟨false, len⟩) (.ok ())]
  fromTree := by simp [WalkItem.From, DirTree.oneFile]
  once := by simp [WalkItem.names?]

/-- The files `one.txt` and `two.txt` of the test at `src/shares.rs:645`. -/
def oneTxt : Name := ⟨Utf8.encode "one.txt", by decide⟩

@[inherit_doc oneTxt]
def twoTxt : Name := ⟨Utf8.encode "two.txt", by decide⟩

/-- The index of that test before the removal: a share and one whose name extends its name. -/
def fooFoobar : Shares :=
  ((Shares.empty.scan "/a/foo" (Walk.oneFile oneTxt 3).items).1.scan "/a/foobar"
    (Walk.oneFile twoTxt 3).items).1

/-- What the two scans visited. -/
def fooFoobarView : View :=
  View.scanned (View.scanned (fun _ ↦ none) Shares.empty "/a/foo" (Walk.oneFile oneTxt 3).items)
    (Shares.empty.scan "/a/foo" (Walk.oneFile oneTxt 3).items).1 "/a/foobar"
    (Walk.oneFile twoTxt 3).items

/-- Two scans reach this index. -/
theorem fooFoobar_reachable : Reachable fooFoobar fooFoobarView :=
  (Reachable.empty.scan "/a/foo" (Walk.oneFile oneTxt 3)).scan "/a/foobar"
    (Walk.oneFile twoTxt 3)

/-- Removing the share with the shorter name keeps the other one. -/
theorem index_refines_foo_foobar :
    FilesExact fooFoobar fooFoobarView ∧ DirsExact fooFoobar ∧ RemovalSafe fooFoobar ∧
      KeepsOthers fooFoobar (fooFoobar.removeShareDir "foo").1 "foo" := by
  have hsum : totalSize fooFoobar.files < 2 ^ 64 := by decide
  obtain ⟨hfiles, hdirs, hsafe, -, hkeep⟩ := index_refines_shares fooFoobar_reachable hsum
  exact ⟨hfiles, hdirs, hsafe, hkeep "foo" (by decide)⟩

end HarddriveParty
