import HarddriveParty.Shares.Model

/-!
# Directory sizes

The directory tree holds one size for each directory, which is never recomputed: adding a
file adds to each ancestor, and removing a share subtracts from the root and deletes the
rest. `DirsMatch` says that the two trees agree, and both operations keep it.
-/

namespace HarddriveParty

open UnixPath OrderedTree

/-- The size that a tree value stands for. -/
def recordedSize (value : Bytes) : Nat := ((Bytes.readLeU64 value).getD 0).toNat

/-- The size of all indexed files. -/
def totalSize (files : Tree) : Nat := weight files fun _ value ↦ recordedSize value

/-- The size of a file; a file that is not indexed counts for nothing. -/
def fileSize (files : Tree) (f : Bytes) : Nat := files[f]?.elim 0 recordedSize

/-- The size of the indexed files that have `d` as a component-wise ancestor. -/
def sizeBelow (files : Tree) (d : Bytes) : Nat :=
  weight files fun f value ↦ if IsAncestor d f then recordedSize value else 0

/-- Some indexed file has `d` as a component-wise ancestor. -/
def HasBelow (files : Tree) (d : Bytes) : Prop := ∃ f, files[f]?.isSome ∧ IsAncestor d f

/-- Every indexed file lies in a share: its path has at least two names. -/
def FilesInShares (files : Tree) : Prop :=
  ∀ f, files[f]?.isSome → ∃ ns : List Name, 2 ≤ ns.length ∧ f = joinNames ns

/-- The directory tree records exactly the directories above the indexed files, with
their cumulative sizes; the root may also stay recorded without files. -/
structure DirsMatch (files dirs : Tree) : Prop where
  keys : ∀ d, dirs[d]?.isSome → ∃ ns : List Name, d = joinNames ns
  size : ∀ d b, dirs[d]? = some b → b = Bytes.leU64 (UInt64.ofNat (sizeBelow files d))
  present : ∀ ns : List Name, HasBelow files (joinNames ns) → dirs[joinNames ns]?.isSome
  needed : ∀ ns : List Name, ns ≠ [] → dirs[joinNames ns]?.isSome →
    HasBelow files (joinNames ns)

/-- A written size is read back. -/
@[simp] theorem recordedSize_leU64 (size : UInt64) :
    recordedSize (Bytes.leU64 size) = size.toNat := by
  simp [recordedSize]

/-- The empty index matches. -/
theorem dirsMatch_empty : DirsMatch ∅ ∅ where
  keys := by simp
  size := by simp
  present := by simp [HasBelow]
  needed := by simp

/-- Nothing below a directory weighs nothing. -/
theorem sizeBelow_eq_zero {files : Tree} {d : Bytes} (h : ¬ HasBelow files d) :
    sizeBelow files d = 0 := by
  refine weight_eq_zero fun f value hf ↦ if_neg fun hd ↦ ?_
  exact h ⟨f, by rw [hf]; rfl, hd⟩

/-- The files below a directory are part of all files. -/
theorem sizeBelow_le_totalSize (files : Tree) (d : Bytes) :
    sizeBelow files d ≤ totalSize files := by
  refine weight_mono fun f value _ ↦ ?_
  split
  · exact Nat.le_refl _
  · exact Nat.zero_le _

/-- The size of all files is the size below the root. -/
theorem sizeBelow_root {files : Tree} (h : FilesInShares files) :
    sizeBelow files [] = totalSize files := by
  apply weight_congr
  intro f value hf
  obtain ⟨ns, hlen, rfl⟩ := h f (by rw [hf]; rfl)
  rw [if_pos]
  rw [isAncestor_nil]
  rintro rfl
  simp at hlen

/-- Writing a file adds its size to its ancestors and takes away the size that the file had. -/
theorem sizeBelow_insert_add (files : Tree) (f : Bytes) (size : UInt64) (d : Bytes) :
    sizeBelow (files.insert f (Bytes.leU64 size)) d +
        (if IsAncestor d f then fileSize files f else 0) =
      sizeBelow files d + if IsAncestor d f then size.toNat else 0 := by
  have h := weight_insert_add files
    (fun f value ↦ if IsAncestor d f then recordedSize value else 0) f (Bytes.leU64 size)
  rw [recordedSize_leU64] at h
  have hold : files[f]?.elim 0 (fun value ↦ if IsAncestor d f then recordedSize value else 0) =
      if IsAncestor d f then fileSize files f else 0 := by
    unfold fileSize
    cases files[f]? with
    | none => simp
    | some value => rfl
  rw [hold] at h
  exact h

/-- A file that counted for nothing adds its size to its ancestors. -/
theorem sizeBelow_insert {files : Tree} {f : Bytes} (hf : fileSize files f = 0) (size : UInt64)
    (d : Bytes) :
    sizeBelow (files.insert f (Bytes.leU64 size)) d =
      (if IsAncestor d f then size.toNat else 0) + sizeBelow files d := by
  have h := sizeBelow_insert_add files f size d
  rw [hf, ite_self, Nat.add_zero] at h
  rw [h, Nat.add_comm]

private theorem hasBelow_insert {files : Tree} {f d : Bytes} {value : Bytes} :
    HasBelow (files.insert f value) d ↔ IsAncestor d f ∨ HasBelow files d := by
  constructor
  · rintro ⟨g, hg, hd⟩
    rw [getElem?_insert] at hg
    split at hg
    · next he => exact Or.inl (he ▸ hd)
    · exact Or.inr ⟨g, hg, hd⟩
  · rintro (hd | ⟨g, hg, hd⟩)
    · exact ⟨f, by simp, hd⟩
    · refine ⟨g, ?_, hd⟩
      rw [getElem?_insert]
      split
      · rfl
      · exact hg

section Merge

/-- Merging a size into distinct keys changes exactly these. -/
theorem mergeAncestors_spec (size : Bytes) (dirs : Tree) (ks : List Bytes) (hnodup : ks.Nodup)
    (hutf : ∀ k ∈ ks, (Utf8.decode k).isSome) :
    ∃ dirs', Shares.mergeAncestors size dirs ks = (dirs', .ok ()) ∧
      ∀ k, dirs'[k]? = if k ∈ ks then additionMerge k dirs[k]? size else dirs[k]? := by
  induction ks generalizing dirs with
  | nil => exact ⟨dirs, rfl, by simp⟩
  | cons j ks ih =>
    obtain ⟨str, hstr⟩ := Option.isSome_iff_exists.mp (hutf j (by simp))
    have hkey := Utf8.encode_of_decode hstr
    obtain ⟨hj, hnodup⟩ := List.nodup_cons.mp hnodup
    obtain ⟨dirs', hrun, hget⟩ := ih (update dirs j fun old ↦ additionMerge j old size) hnodup
      fun k hk ↦ hutf k (List.mem_cons_of_mem _ hk)
    refine ⟨dirs', ?_, fun k ↦ ?_⟩
    · rw [Shares.mergeAncestors, hstr]
      simp only [hkey]
      exact hrun
    · rw [hget, getElem?_update]
      by_cases hkj : k = j
      · subst k
        simp [hj]
      · simp [hkj]

/-- Merging a size into a recorded size adds the two; an absent size counts as zero. -/
theorem additionMerge_leU64 (k : Bytes) (old : Option Bytes) (size : UInt64) (n : Nat)
    (hold : old = some (Bytes.leU64 (UInt64.ofNat n)) ∨ old = none ∧ n = 0) :
    additionMerge k old (Bytes.leU64 size) =
      some (Bytes.leU64 (UInt64.ofNat (size.toNat + n))) := by
  rcases hold with rfl | ⟨rfl, rfl⟩
  · simp [additionMerge, UInt64.ofNat_add, UInt64.add_comm]
  · simp [additionMerge]

/-- The keys that `scan` merges into for a file: its proper ancestors. -/
theorem mem_ancestors_dropLast {ns ms : List Name} (hns : ns ≠ []) :
    joinNames ms ∈ ancestors (joinNames ns.dropLast) ↔
      IsAncestor (joinNames ms) (joinNames ns) := by
  rw [ancestors_joinNames, isAncestor_joinNames, List.mem_map]
  constructor
  · rintro ⟨p, hp, he⟩
    rw [List.mem_reverse, List.mem_inits] at hp
    rw [joinNames_inj] at he
    subst he
    refine ⟨hp.trans (List.dropLast_prefix ns), ?_⟩
    rintro rfl
    have hlen := hp.length_le
    have hpos := List.length_pos_iff.mpr hns
    rw [List.length_dropLast] at hlen
    omega
  · rintro ⟨hp, hne⟩
    refine ⟨ms, ?_, rfl⟩
    rw [List.mem_reverse, List.mem_inits]
    obtain ⟨t, rfl⟩ := hp
    have ht : t ≠ [] := by
      rintro rfl
      exact hne (List.append_nil ms).symm
    rw [List.dropLast_append_of_ne_nil ht]
    exact List.prefix_append _ _

/-- The size of a file is merged into the root. -/
theorem nil_mem_ancestors {ns : List Name} (hns : ns ≠ []) :
    ([] : Bytes) ∈ ancestors (joinNames ns.dropLast) := by
  rw [← joinNames_nil, mem_ancestors_dropLast hns, joinNames_nil, isAncestor_nil]
  exact hns

private theorem nodup_inits (ns : List Name) : ns.inits.Nodup := by
  induction ns with
  | nil => simp
  | cons n ns ih =>
    rw [List.inits_cons, List.nodup_cons]
    exact ⟨by simp, ih.map fun _ _ h ↦ (List.cons.inj h).2⟩

/-- The ancestors of a path of names are pairwise distinct. -/
theorem nodup_ancestors (ns : List Name) : (ancestors (joinNames ns)).Nodup := by
  rw [ancestors_joinNames]
  refine List.Nodup.map (fun _ _ h ↦ joinNames_inj.mp h) ?_
  exact List.nodup_reverse.mpr (nodup_inits ns)

/-- A directory without files below it may be absent. -/
theorem DirsMatch.value_or_absent {files dirs : Tree} (h : DirsMatch files dirs)
    (ms : List Name) :
    dirs[joinNames ms]? = some (Bytes.leU64 (UInt64.ofNat (sizeBelow files (joinNames ms)))) ∨
      dirs[joinNames ms]? = none ∧ sizeBelow files (joinNames ms) = 0 := by
  cases hd : dirs[joinNames ms]? with
  | some b => exact Or.inl (congrArg some (h.size _ b hd))
  | none =>
    refine Or.inr ⟨rfl, sizeBelow_eq_zero fun hb ↦ ?_⟩
    have hs := h.present ms hb
    rw [hd] at hs
    cases hs

/-- Writing a file that counted for nothing and merging its size into its ancestors keeps the
trees in step. -/
theorem DirsMatch.write {files dirs dirs' : Tree} (h : DirsMatch files dirs) {ns : List Name}
    (hns : ns ≠ []) (hf : fileSize files (joinNames ns) = 0) (size : UInt64)
    (hget : ∀ k, dirs'[k]? = if k ∈ ancestors (joinNames ns.dropLast) then
      additionMerge k dirs[k]? (Bytes.leU64 size) else dirs[k]?) :
    DirsMatch (files.insert (joinNames ns) (Bytes.leU64 size)) dirs' := by
  have hkeys : ∀ d, dirs'[d]?.isSome → ∃ ms : List Name, d = joinNames ms := by
    intro d hd
    rw [hget] at hd
    split at hd
    · next hmem =>
      rw [ancestors_joinNames, List.mem_map] at hmem
      obtain ⟨ms, -, rfl⟩ := hmem
      exact ⟨ms, rfl⟩
    · exact h.keys d hd
  have hval : ∀ ms : List Name, IsAncestor (joinNames ms) (joinNames ns) →
      dirs'[joinNames ms]? = some (Bytes.leU64 (UInt64.ofNat
        (size.toNat + sizeBelow files (joinNames ms)))) := by
    intro ms hms
    rw [hget, if_pos ((mem_ancestors_dropLast hns).mpr hms)]
    exact additionMerge_leU64 _ _ _ _ (h.value_or_absent ms)
  have hother : ∀ ms : List Name, ¬ IsAncestor (joinNames ms) (joinNames ns) →
      dirs'[joinNames ms]? = dirs[joinNames ms]? := by
    intro ms hms
    rw [hget, if_neg fun hmem ↦ hms ((mem_ancestors_dropLast hns).mp hmem)]
  refine ⟨hkeys, fun d b hd ↦ ?_, fun ms hms ↦ ?_, fun ms hne hms ↦ ?_⟩
  · obtain ⟨ms, rfl⟩ := hkeys d (by rw [hd]; rfl)
    rw [sizeBelow_insert hf]
    by_cases ha : IsAncestor (joinNames ms) (joinNames ns)
    · rw [hval ms ha] at hd
      rw [if_pos ha]
      exact (Option.some.inj hd).symm
    · rw [hother ms ha] at hd
      rw [if_neg ha, Nat.zero_add]
      exact h.size _ b hd
  · by_cases ha : IsAncestor (joinNames ms) (joinNames ns)
    · rw [hval ms ha]
      rfl
    · rw [hother ms ha]
      exact h.present ms ((hasBelow_insert.mp hms).resolve_left ha)
  · by_cases ha : IsAncestor (joinNames ms) (joinNames ns)
    · exact hasBelow_insert.mpr (Or.inl ha)
    · rw [hother ms ha] at hms
      exact hasBelow_insert.mpr (Or.inr (h.needed ms hne hms))

/-- Adding a new file and merging its size into its ancestors keeps the trees in step. -/
theorem DirsMatch.insert {files dirs dirs' : Tree} (h : DirsMatch files dirs) {ns : List Name}
    (hns : ns ≠ []) (hf : files[joinNames ns]? = none) (size : UInt64)
    (hget : ∀ k, dirs'[k]? = if k ∈ ancestors (joinNames ns.dropLast) then
      additionMerge k dirs[k]? (Bytes.leU64 size) else dirs[k]?) :
    DirsMatch (files.insert (joinNames ns) (Bytes.leU64 size)) dirs' :=
  h.write hns (by rw [fileSize, hf]; rfl) size hget

end Merge

section Remove

/-- A path of names belongs to a share when it starts with the name of the share. -/
theorem shareKeyMatches_joinNames {ns : List Name} {shareName : String}
    (h : IsName (Utf8.encode shareName)) :
    shareKeyMatches (joinNames ns) shareName = true ↔
      [(⟨Utf8.encode shareName, h⟩ : Name)] <+: ns := by
  rw [joinNames_prefix_iff (by simp), joinNames_singleton, shareKeyMatches, Bool.or_eq_true,
    beq_iff_eq, List.isPrefixOf_iff_prefix]

/-- A path of names starts with a share when the share is its first name. -/
theorem startsWith_share {ns : List Name} {shareName : String}
    (h : IsName (Utf8.encode shareName)) :
    StartsWith (joinNames ns) (Utf8.encode shareName) ↔
      [(⟨Utf8.encode shareName, h⟩ : Name)] <+: ns := by
  rw [← startsWith_joinNames, joinNames_singleton]

private theorem prefix_of_shareKeyMatches {k : Bytes} {shareName : String}
    (h : shareKeyMatches k shareName = true) : Utf8.encode shareName <+: k := by
  rw [shareKeyMatches, Bool.or_eq_true, beq_iff_eq, List.isPrefixOf_iff_prefix] at h
  rcases h with rfl | h
  · exact List.prefix_rfl
  · exact (List.prefix_append _ _).trans h

/-- Removing a share from one tree keeps exactly the entries that do not belong to it. -/
theorem removeMatching_eq_filter (t : Tree) (shareName : String) :
    Shares.removeMatching t shareName = t.filter fun k _ ↦ !shareKeyMatches k shareName :=
  eraseKeys_scanPrefix t _ _ fun _ h ↦ prefix_of_shareKeyMatches h

/-- An entry survives a removal when it was there and does not belong to the share. -/
theorem getElem?_removeMatching (t : Tree) (shareName : String) (k : Bytes) :
    (Shares.removeMatching t shareName)[k]? =
      if shareKeyMatches k shareName then none else t[k]? := by
  rw [removeMatching_eq_filter, Std.ExtTreeMap.getElem?_filter']
  cases shareKeyMatches k shareName <;> cases t[k]? <;> rfl

private theorem head_prefix_left {n : Name} {ms ns : List Name} (hne : ms ≠ [])
    (hm : ms <+: ns) (hn : [n] <+: ns) : [n] <+: ms := by
  refine List.prefix_of_prefix_length_le hn hm ?_
  exact List.length_pos_iff.mpr hne

variable {files dirs : Tree} {shareName : String}

private theorem sizeBelow_root_split (hfiles : FilesInShares files)
    (hname : IsName (Utf8.encode shareName)) :
    sizeBelow (Shares.removeMatching files shareName) [] +
      sizeBelow files (Utf8.encode shareName) = sizeBelow files [] := by
  rw [removeMatching_eq_filter, sizeBelow, sizeBelow, sizeBelow,
    ← weight_filter_add files (fun k ↦ !shareKeyMatches k shareName)
      (fun f value ↦ if IsAncestor [] f then recordedSize value else 0)]
  congr 1
  refine weight_congr fun f value hf ↦ ?_
  obtain ⟨ns, hlen, rfl⟩ := hfiles f (by rw [hf]; rfl)
  have hroot : IsAncestor [] (joinNames ns) := by
    rw [isAncestor_nil]
    rintro rfl
    simp at hlen
  have hshare : IsAncestor (Utf8.encode shareName) (joinNames ns) ↔
      shareKeyMatches (joinNames ns) shareName = true := by
    have ha : IsAncestor (joinNames [⟨Utf8.encode shareName, hname⟩]) (joinNames ns) ↔ _ :=
      isAncestor_joinNames
    rw [joinNames_singleton] at ha
    rw [ha, shareKeyMatches_joinNames hname, and_iff_left]
    rintro rfl
    simp at hlen
  simp only [hshare, hroot, if_true]
  cases shareKeyMatches (joinNames ns) shareName <;> rfl

private theorem sizeBelow_other (hfiles : FilesInShares files)
    (hname : IsName (Utf8.encode shareName)) {ms : List Name} (hne : ms ≠ [])
    (hms : ¬ shareKeyMatches (joinNames ms) shareName = true) :
    sizeBelow (Shares.removeMatching files shareName) (joinNames ms) =
      sizeBelow files (joinNames ms) := by
  rw [removeMatching_eq_filter, sizeBelow, weight_filter]
  refine weight_congr fun f value hf ↦ ?_
  obtain ⟨ns, -, rfl⟩ := hfiles f (by rw [hf]; rfl)
  by_cases ha : IsAncestor (joinNames ms) (joinNames ns)
  · have hkeep : ¬ shareKeyMatches (joinNames ns) shareName = true := by
      rw [shareKeyMatches_joinNames hname] at hms ⊢
      exact fun hn ↦ hms (head_prefix_left hne (isAncestor_joinNames.mp ha).1 hn)
    simp [hkeep]
  · simp [ha]

private theorem hasBelow_removeMatching (hfiles : FilesInShares files)
    (hname : IsName (Utf8.encode shareName)) {ms : List Name} (hne : ms ≠ []) :
    HasBelow (Shares.removeMatching files shareName) (joinNames ms) ↔
      HasBelow files (joinNames ms) ∧ ¬ shareKeyMatches (joinNames ms) shareName = true := by
  constructor
  · rintro ⟨f, hf, ha⟩
    rw [getElem?_removeMatching] at hf
    split at hf
    · cases hf
    · next hkeep =>
      refine ⟨⟨f, hf, ha⟩, fun hms ↦ hkeep ?_⟩
      obtain ⟨ns, -, rfl⟩ := hfiles f hf
      rw [shareKeyMatches_joinNames hname] at hms ⊢
      exact hms.trans (isAncestor_joinNames.mp ha).1
  · rintro ⟨⟨f, hf, ha⟩, hms⟩
    refine ⟨f, ?_, ha⟩
    obtain ⟨ns, -, rfl⟩ := hfiles f hf
    rw [getElem?_removeMatching, if_neg]
    · exact hf
    · rw [shareKeyMatches_joinNames hname] at hms ⊢
      exact fun hn ↦ hms (head_prefix_left hne (isAncestor_joinNames.mp ha).1 hn)

/-- A recorded share lies below the recorded root. -/
theorem DirsMatch.root_of_share (h : DirsMatch files dirs)
    (hname : IsName (Utf8.encode shareName)) {existingSize : UInt64}
    (hget : dirs[Utf8.encode shareName]?.bind Bytes.readLeU64 = some existingSize) :
    existingSize = UInt64.ofNat (sizeBelow files (Utf8.encode shareName)) ∧
      dirs[([] : Bytes)]? = some (Bytes.leU64 (UInt64.ofNat (sizeBelow files []))) := by
  obtain ⟨b, hb, hread⟩ := Option.bind_eq_some_iff.mp hget
  have hsize := h.size _ b hb
  rw [hsize, Bytes.readLeU64_leU64] at hread
  refine ⟨(Option.some.inj hread).symm, ?_⟩
  have hbelow := h.needed [⟨Utf8.encode shareName, hname⟩] (by simp)
    (by rw [joinNames_singleton, hb]; rfl)
  obtain ⟨f, hf, ha⟩ := hbelow
  have hroot : HasBelow files (joinNames []) := by
    refine ⟨f, hf, List.nil_prefix, ?_⟩
    intro hc
    have hnil : components f = [] := hc.symm
    have hp := ha.1
    rw [StartsWith, hnil] at hp
    exact ha.2 (by rw [List.prefix_nil.mp hp, hnil])
  obtain ⟨r, hr⟩ := Option.isSome_iff_exists.mp (h.present [] hroot)
  rw [joinNames_nil] at hr
  rw [hr, h.size [] r hr]

/-- Taking a recorded share out keeps the trees in step. -/
theorem DirsMatch.remove (h : DirsMatch files dirs) (hfiles : FilesInShares files)
    (hname : IsName (Utf8.encode shareName)) {existingSize : UInt64}
    (hget : dirs[Utf8.encode shareName]?.bind Bytes.readLeU64 = some existingSize) :
    DirsMatch (Shares.removeMatching files shareName)
      (Shares.removeMatching (update dirs [] fun rootSizeOption ↦
        some (Bytes.leU64 (Shares.rootSizeWithout existingSize rootSizeOption))) shareName) := by
  obtain ⟨hexist, hroot⟩ := h.root_of_share hname hget
  have hempty : ¬ shareKeyMatches (joinNames []) shareName = true := by
    rw [shareKeyMatches_joinNames hname]
    simp
  have hnew : UInt64.ofNat (sizeBelow files []) - existingSize =
      UInt64.ofNat (sizeBelow (Shares.removeMatching files shareName) []) := by
    rw [← sizeBelow_root_split hfiles hname, UInt64.ofNat_add, hexist, UInt64.add_sub_cancel]
  have hdirs : ∀ ms : List Name, ms ≠ [] →
      (Shares.removeMatching (update dirs [] fun rootSizeOption ↦
        some (Bytes.leU64 (Shares.rootSizeWithout existingSize rootSizeOption)))
          shareName)[joinNames ms]? =
        if shareKeyMatches (joinNames ms) shareName then none else dirs[joinNames ms]? := by
    intro ms hne
    rw [getElem?_removeMatching, getElem?_update, if_neg (joinNames_eq_nil_iff.not.mpr hne)]
  have hzero : (Shares.removeMatching (update dirs [] fun rootSizeOption ↦
        some (Bytes.leU64 (Shares.rootSizeWithout existingSize rootSizeOption)))
          shareName)[joinNames []]? = some (Bytes.leU64 (UInt64.ofNat
            (sizeBelow (Shares.removeMatching files shareName) []))) := by
    rw [getElem?_removeMatching, if_neg hempty, getElem?_update, joinNames_nil, if_pos rfl, hroot]
    simp [Shares.rootSizeWithout, hnew]
  have hkeys : ∀ d, (Shares.removeMatching (update dirs [] fun rootSizeOption ↦
        some (Bytes.leU64 (Shares.rootSizeWithout existingSize rootSizeOption)))
          shareName)[d]?.isSome → ∃ ms : List Name, d = joinNames ms := by
    intro d hd
    rw [getElem?_removeMatching] at hd
    split at hd
    · cases hd
    · rw [getElem?_update] at hd
      split at hd
      · next he => exact ⟨[], he⟩
      · exact h.keys d hd
  refine ⟨hkeys, fun d b hd ↦ ?_, fun ms hms ↦ ?_, fun ms hne hms ↦ ?_⟩
  · obtain ⟨ms, rfl⟩ := hkeys d (by rw [hd]; rfl)
    by_cases hne : ms = []
    · subst hne
      rw [hzero] at hd
      exact (Option.some.inj hd).symm
    · rw [hdirs ms hne] at hd
      split at hd
      · cases hd
      · next hkeep =>
        rw [sizeBelow_other hfiles hname hne hkeep]
        exact h.size _ b hd
  · by_cases hne : ms = []
    · subst hne
      rw [hzero]
      rfl
    · obtain ⟨hb, hkeep⟩ := (hasBelow_removeMatching hfiles hname hne).mp hms
      rw [hdirs ms hne, if_neg hkeep]
      exact h.present ms hb
  · rw [hdirs ms hne] at hms
    split at hms
    · cases hms
    · next hkeep =>
      exact (hasBelow_removeMatching hfiles hname hne).mpr ⟨h.needed ms hne hms, hkeep⟩

end Remove

end HarddriveParty
