import HarddriveParty.Shares.Removal

/-!
# What a scan writes

After removals of any strings an index need not be consistent, but it stays well formed, and
from every well-formed index a scan leaves its share with exactly the files it indexed and
the directories above them. Outside the share it changes the root size only.
-/

namespace HarddriveParty

open UnixPath OrderedTree Runs

/-- What every run of scans and removals of any strings keeps: keys are paths of names, sizes
are eight bytes, and below the root the directories above an entry are recorded. -/
structure WellFormed (s : Shares) : Prop where
  names : ∀ k, s.shareNames[k]?.isSome → IsName k
  files : FilesInShares s.files
  keys : ∀ d, s.dirs[d]?.isSome → ∃ ns : List Name, d = joinNames ns
  sizes : ∀ d b : Bytes, s.dirs[d]? = some b → ∃ size : UInt64, b = Bytes.leU64 size
  above : ∀ ns ms : List Name, ms ≠ [] → ms <+: ns → s.dirs[joinNames ns]?.isSome →
    s.dirs[joinNames ms]?.isSome
  present : ∀ ms : List Name, ms ≠ [] → HasBelow s.files (joinNames ms) →
    s.dirs[joinNames ms]?.isSome

variable {s : Shares} {shareName : String}

/-- The empty index is well formed. -/
theorem wellFormed_empty : WellFormed Shares.empty := by
  constructor <;> simp [Shares.empty, FilesInShares, HasBelow]

section Removal

/-- What a removal takes out is closed downwards: a key below a removed one is removed. -/
private theorem shareKeyMatches_mono {ns ms : List Name} (hms : ms ≠ []) (hp : ms <+: ns)
    (h : shareKeyMatches (joinNames ms) shareName = true) :
    shareKeyMatches (joinNames ns) shareName = true := by
  rw [shareKeyMatches, Bool.or_eq_true, beq_iff_eq, List.isPrefixOf_iff_prefix] at h ⊢
  rcases (joinNames_prefix_iff hms).mp hp with he | hbelow
  · rw [he]
    exact h
  · right
    rcases h with he | hin
    · rw [← he]
      exact hbelow
    · exact hin.trans ((List.prefix_append _ _).trans hbelow)

/-- The directory tree after a removal that finds its argument. -/
private theorem getElem?_dirs_removed {existingSize : UInt64}
    (hget : s.getDirSize shareName = some existingSize) (k : Bytes) :
    (s.removeShareDir shareName).1.dirs[k]? =
      if shareKeyMatches k shareName then none
      else if k = [] then
        some (Bytes.leU64 (Shares.rootSizeWithout existingSize s.dirs[([] : Bytes)]?))
      else s.dirs[k]? := by
  rw [removeShareDir_of_getDirSize hget]
  simp only [getElem?_removeMatching, getElem?_update]

/-- Removing any string keeps an index well formed. -/
theorem WellFormed.removeShareDir (h : WellFormed s) (shareName : String) :
    WellFormed (s.removeShareDir shareName).1 := by
  cases hget : s.getDirSize shareName with
  | none =>
    rw [removeShareDir_of_none hget]
    exact h
  | some existingSize =>
    have hdirs := getElem?_dirs_removed hget
    have hfiles : ∀ k, (s.removeShareDir shareName).1.files[k]? =
        if shareKeyMatches k shareName then none else s.files[k]? := by
      rw [removeShareDir_of_getDirSize hget]
      exact getElem?_removeMatching s.files shareName
    have hbelow : ∀ ms : List Name, ms ≠ [] →
        ¬ shareKeyMatches (joinNames ms) shareName = true → (s.dirs[joinNames ms]?).isSome →
          ((s.removeShareDir shareName).1.dirs[joinNames ms]?).isSome := by
      intro ms hms hkeep hsome
      rw [hdirs, if_neg hkeep, if_neg (joinNames_eq_nil_iff.not.mpr hms)]
      exact hsome
    constructor
    · rw [removeShareDir_of_getDirSize hget]
      exact forall_keys_erase h.names _
    · intro f hf
      rw [hfiles] at hf
      split at hf
      · cases hf
      · exact h.files f hf
    · intro d hd
      rw [hdirs] at hd
      split at hd
      · cases hd
      · split at hd
        · next he => exact ⟨[], he⟩
        · exact h.keys d hd
    · intro d b hd
      rw [hdirs] at hd
      split at hd
      · cases hd
      · split at hd
        · cases hd
          exact ⟨_, rfl⟩
        · exact h.sizes d b hd
    · intro ns ms hms hp hsome
      have hns : ns ≠ [] := by
        rintro rfl
        exact hms (List.prefix_nil.mp hp)
      rw [hdirs, if_neg (joinNames_eq_nil_iff.not.mpr hns)] at hsome
      split at hsome
      · cases hsome
      · next hkeep =>
        exact hbelow ms hms (fun hm ↦ hkeep (shareKeyMatches_mono hms hp hm))
          (h.above ns ms hms hp hsome)
    · rintro ms hms ⟨f, hf, ha⟩
      rw [hfiles] at hf
      split at hf
      · cases hf
      · next hkeep =>
        obtain ⟨ns, -, rfl⟩ := h.files f hf
        have hp := (isAncestor_joinNames.mp ha).1
        exact hbelow ms hms (fun hm ↦ hkeep (shareKeyMatches_mono hms hp hm))
          (h.present ms hms ⟨_, hf, ha⟩)

end Removal

section Insert

variable {names : List Name}

/-- Indexing one file keeps an index well formed. -/
theorem WellFormed.scanFile (h : WellFormed s) (hname : IsName (Utf8.encode shareName))
    (root : String) (hne : names ≠ []) (len : UInt64) :
    WellFormed (Shares.scanFile root shareName s names len).1 := by
  cases hdec : Utf8.decode (sharePath shareName names) with
  | none =>
    rw [scanFile_notUtf8 hdec root]
    exact h
  | some path =>
    obtain ⟨dirs', hrun, hget⟩ := scanFile_insert hname root hne len (by rw [hdec]; rfl) s
    rw [hrun]
    have hcons : (⟨Utf8.encode shareName, hname⟩ :: names : List Name) ≠ [] :=
      List.cons_ne_nil _ _
    have hkeep : ∀ ms : List Name, (s.dirs[joinNames ms]?).isSome →
        (dirs'[joinNames ms]?).isSome := by
      intro ms hms
      rw [hget]
      split
      · rfl
      · exact hms
    have hnew : ∀ ms : List Name,
        IsAncestor (joinNames ms) (joinNames (⟨Utf8.encode shareName, hname⟩ :: names)) →
          (dirs'[joinNames ms]?).isSome := by
      intro ms hms
      rw [hget, if_pos ((mem_ancestors_dropLast hcons).mpr hms)]
      rfl
    constructor
    · exact h.names
    · intro f hf
      simp only [getElem?_insert] at hf
      split at hf
      · next he =>
        refine ⟨_, ?_, he.trans (sharePath_eq hname hne)⟩
        have hpos := List.length_pos_iff.mpr hne
        rw [List.length_cons]
        omega
      · exact h.files f hf
    · intro d hd
      simp only [hget] at hd
      split at hd
      · next hmem =>
        rw [ancestors_joinNames, List.mem_map] at hmem
        obtain ⟨ms, -, rfl⟩ := hmem
        exact ⟨ms, rfl⟩
      · exact h.keys d hd
    · intro d b hd
      simp only [hget] at hd
      split at hd
      · cases hd
        exact ⟨_, rfl⟩
      · exact h.sizes d b hd
    · intro ns ms hms hp hsome
      simp only [hget] at hsome
      split at hsome
      · next hmem =>
        obtain ⟨hpre, hproper⟩ :=
          isAncestor_joinNames.mp ((mem_ancestors_dropLast hcons).mp hmem)
        refine hnew ms (isAncestor_joinNames.mpr ⟨hp.trans hpre, ?_⟩)
        rintro rfl
        exact hproper (hpre.eq_of_length (Nat.le_antisymm hpre.length_le hp.length_le))
      · exact hkeep ms (h.above ns ms hms hp hsome)
    · rintro ms hms ⟨f, hf, ha⟩
      simp only [getElem?_insert] at hf
      split at hf
      · next he =>
        rw [he, sharePath_eq hname hne] at ha
        exact hnew ms ha
      · exact hkeep ms (h.present ms hms ⟨f, hf, ha⟩)

end Insert

/-- The size of those of the given files of a share that lie below a directory. -/
def listedBelow (shareName : String) (l : List (List Name × UInt64)) (d : Bytes) : Nat :=
  (l.map fun f ↦ if IsAncestor d (sharePath shareName f.1) then f.2.toNat else 0).sum

/-- The index has exactly the given files in a share, and the directories above them with the
sums of their sizes. -/
structure ShareHolds (s : Shares) (shareName : String) (l : List (List Name × UInt64)) :
    Prop where
  files : ∀ k b, StartsWith k (Utf8.encode shareName) → (s.files[k]? = some b ↔
    ∃ f ∈ l, k = sharePath shareName f.1 ∧ b = Bytes.leU64 f.2)
  dirs : ∀ ns : List Name, StartsWith (joinNames ns) (Utf8.encode shareName) →
    s.dirs[joinNames ns]? =
      if ∃ f ∈ l, IsAncestor (joinNames ns) (sharePath shareName f.1) then
        some (Bytes.leU64 (UInt64.ofNat (listedBelow shareName l (joinNames ns))))
      else none

/-- Two indexes agree outside a share, up to the root size. -/
structure SameOutside (s s' : Shares) (shareName : String) : Prop where
  files : ∀ k, ¬ StartsWith k (Utf8.encode shareName) → s'.files[k]? = s.files[k]?
  dirs : ∀ k, k ≠ [] → ¬ StartsWith k (Utf8.encode shareName) → s'.dirs[k]? = s.dirs[k]?

/-- The recorded size of the root; an absent one counts as zero. -/
def Shares.rootSize (s : Shares) : UInt64 := (s.getDirSize "").getD 0

namespace SameOutside

variable {s' s'' : Shares}

/-- An index agrees with itself. -/
theorem refl (s : Shares) (shareName : String) : SameOutside s s shareName :=
  ⟨fun _ _ ↦ rfl, fun _ _ _ ↦ rfl⟩

/-- Agreement outside a share is transitive. -/
theorem trans (h : SameOutside s s' shareName) (h' : SameOutside s' s'' shareName) :
    SameOutside s s'' shareName where
  files k hk := (h'.files k hk).trans (h.files k hk)
  dirs k hne hk := (h'.dirs k hne hk).trans (h.dirs k hne hk)

end SameOutside

private theorem listedBelow_concat (shareName : String) (l : List (List Name × UInt64))
    (f : List Name × UInt64) (d : Bytes) :
    listedBelow shareName (l ++ [f]) d = listedBelow shareName l d +
      if IsAncestor d (sharePath shareName f.1) then f.2.toNat else 0 := by
  simp [listedBelow]

private theorem listedBelow_eq_zero {l : List (List Name × UInt64)} {d : Bytes}
    (h : ¬ ∃ f ∈ l, IsAncestor d (sharePath shareName f.1)) :
    listedBelow shareName l d = 0 := by
  apply List.sum_eq_zero
  intro n hn
  obtain ⟨f, hf, rfl⟩ := List.mem_map.mp hn
  exact if_neg fun ha ↦ h ⟨f, hf, ha⟩

section IndexFile

variable {l : List (List Name × UInt64)} {names : List Name} {len : UInt64} {dirs' : Tree}

private theorem startsWith_sharePath (hname : IsName (Utf8.encode shareName)) (hne : names ≠ []) :
    StartsWith (sharePath shareName names) (Utf8.encode shareName) := by
  rw [sharePath_eq hname hne, startsWith_share hname]
  exact ⟨names, rfl⟩

/-- Indexing a file that the share does not hold yet adds it to the share. -/
private theorem ShareHolds.insert (h : ShareHolds s shareName l)
    (hname : IsName (Utf8.encode shareName)) (hne : names ≠ [])
    (hl : ∀ f ∈ l, f.1 ≠ []) (hnew : names ∉ l.map Prod.fst)
    (hget : ∀ k, dirs'[k]? = if k ∈ ancestors
        (joinNames (⟨Utf8.encode shareName, hname⟩ :: names).dropLast) then
      additionMerge k s.dirs[k]? (Bytes.leU64 len) else s.dirs[k]?) :
    ShareHolds { s with dirs := dirs'
                        files := s.files.insert (sharePath shareName names) (Bytes.leU64 len) }
      shareName (l ++ [(names, len)]) := by
  constructor
  · intro k b hk
    simp only [getElem?_insert, List.mem_append, List.mem_singleton]
    split
    · next he =>
      constructor
      · intro hb
        cases hb
        exact ⟨(names, len), Or.inr rfl, he, rfl⟩
      · rintro ⟨f, hf | rfl, hkf, rfl⟩
        · have hsame := (sharePath_inj hname hname hne (hl f hf)).mp (he.symm.trans hkf)
          exact absurd (hsame.2 ▸ List.mem_map_of_mem hf) hnew
        · rfl
    · next he =>
      rw [h.files k b hk]
      constructor
      · rintro ⟨f, hf, hkf, hb⟩
        exact ⟨f, Or.inl hf, hkf, hb⟩
      · rintro ⟨f, hf | rfl, hkf, hb⟩
        · exact ⟨f, hf, hkf, hb⟩
        · exact absurd hkf he
  · intro ns hns
    have hcons : (⟨Utf8.encode shareName, hname⟩ :: names : List Name) ≠ [] :=
      List.cons_ne_nil _ _
    have hmem : joinNames ns ∈ ancestors
        (joinNames (⟨Utf8.encode shareName, hname⟩ :: names).dropLast) ↔
          IsAncestor (joinNames ns) (sharePath shareName names) := by
      rw [mem_ancestors_dropLast hcons, sharePath_eq hname hne]
    simp only [hget, hmem, listedBelow_concat]
    have hold := h.dirs ns hns
    by_cases ha : IsAncestor (joinNames ns) (sharePath shareName names)
    · rw [if_pos ha, if_pos ⟨(names, len), by simp, ha⟩, if_pos ha, Nat.add_comm]
      apply additionMerge_leU64
      by_cases hex : ∃ f ∈ l, IsAncestor (joinNames ns) (sharePath shareName f.1)
      · rw [if_pos hex] at hold
        exact Or.inl hold
      · rw [if_neg hex] at hold
        exact Or.inr ⟨hold, listedBelow_eq_zero hex⟩
    · rw [if_neg ha, if_neg ha, hold, Nat.add_zero]
      have hiff : (∃ f ∈ l ++ [(names, len)],
          IsAncestor (joinNames ns) (sharePath shareName f.1)) ↔
            ∃ f ∈ l, IsAncestor (joinNames ns) (sharePath shareName f.1) := by
        simp [ha, or_and_right, exists_or]
      simp only [hiff]

/-- Indexing a file of a share changes nothing outside but the root. -/
private theorem sameOutside_insert (hname : IsName (Utf8.encode shareName)) (hne : names ≠ [])
    (hget : ∀ k, dirs'[k]? = if k ∈ ancestors
        (joinNames (⟨Utf8.encode shareName, hname⟩ :: names).dropLast) then
      additionMerge k s.dirs[k]? (Bytes.leU64 len) else s.dirs[k]?) :
    SameOutside s { s with
      dirs := dirs'
      files := s.files.insert (sharePath shareName names) (Bytes.leU64 len) } shareName := by
  constructor
  · intro k hk
    simp only [getElem?_insert]
    rw [if_neg]
    rintro rfl
    exact hk (startsWith_sharePath hname hne)
  · intro k hk hout
    simp only [hget]
    rw [if_neg]
    intro hmem
    have hmem' := hmem
    rw [ancestors_joinNames, List.mem_map] at hmem'
    obtain ⟨ms, -, rfl⟩ := hmem'
    have ha := isAncestor_joinNames.mp ((mem_ancestors_dropLast (List.cons_ne_nil _ _)).mp hmem)
    rw [startsWith_share hname] at hout
    apply hout
    obtain ⟨m, rest, rfl⟩ := List.exists_cons_of_ne_nil (joinNames_eq_nil_iff.not.mp hk)
    rw [(List.cons_prefix_cons.mp ha.1).1]
    exact ⟨rest, rfl⟩

end IndexFile

/-- The size of the given files. -/
def listedSize (l : List (List Name × UInt64)) : Nat := (l.map fun f ↦ f.2.toNat).sum

/-- What the loop of a scan has made of an index `s` after it indexed the given files. -/
structure Scanned (s s' : Shares) (shareName : String) (l : List (List Name × UInt64)) :
    Prop where
  wellFormed : WellFormed s'
  holds : ShareHolds s' shareName l
  names : s'.shareNames = s.shareNames
  outside : SameOutside s s' shareName
  root : s'.dirs[([] : Bytes)]? = if l = [] then s.dirs[([] : Bytes)]? else
    some (Bytes.leU64 (s.rootSize + UInt64.ofNat (listedSize l)))
  named : ∀ f ∈ l, f.1 ≠ []

section Loop

variable {s' : Shares} {l : List (List Name × UInt64)}

/-- The recorded root size, read from the tree. -/
theorem rootSize_eq (s : Shares) :
    s.rootSize = ((s.dirs[([] : Bytes)]?).bind Bytes.readLeU64).getD 0 := rfl

/-- The recorded root size grows by the size of the indexed files. -/
private theorem Scanned.rootSize (h : Scanned s s' shareName l) :
    s'.rootSize = s.rootSize + UInt64.ofNat (listedSize l) := by
  rw [rootSize_eq, h.root]
  split
  · next hl =>
    subst hl
    rw [← rootSize_eq]
    simp [listedSize]
  · simp

private theorem additionMerge_root (s : Shares) (size : UInt64) :
    additionMerge [] s.dirs[([] : Bytes)]? (Bytes.leU64 size) =
      some (Bytes.leU64 (s.rootSize + size)) := by
  rw [rootSize_eq]
  cases s.dirs[([] : Bytes)]? with
  | none => simp [additionMerge]
  | some b => simp [additionMerge]

/-- One more file that the scan has not met yet. -/
private theorem Scanned.insert (h : Scanned s s' shareName l)
    (hname : IsName (Utf8.encode shareName)) (root : String) {names : List Name}
    (hne : names ≠ []) (hnew : names ∉ l.map Prod.fst) (len : UInt64)
    (hutf : (Utf8.decode (sharePath shareName names)).isSome) :
    Scanned s (Shares.scanFile root shareName s' names len).1 shareName (l ++ [(names, len)]) := by
  have hwf := h.wellFormed.scanFile hname root hne len
  obtain ⟨dirs', hrun, hget⟩ := scanFile_insert hname root hne len hutf s'
  rw [hrun] at hwf ⊢
  have hsum : listedSize (l ++ [(names, len)]) = listedSize l + len.toNat := by
    simp [listedSize]
  refine ⟨hwf, h.holds.insert hname hne h.named hnew hget, h.names,
    h.outside.trans (sameOutside_insert hname hne hget), ?_, fun f hf ↦ ?_⟩
  · show dirs'[([] : Bytes)]? = _
    rw [hget, if_pos (nil_mem_ancestors (List.cons_ne_nil _ _)), additionMerge_root, h.rootSize,
      if_neg (by simp), hsum, UInt64.ofNat_add, UInt64.ofNat_toNat, UInt64.add_assoc]
  · rcases List.mem_append.mp hf with hf | hf
    · exact h.named f hf
    · rw [List.mem_singleton.mp hf]
      exact hne

/-- From an index without the share the loop of a scan writes the files it visits. -/
theorem WellFormed.scanLoop (h : WellFormed s) (hname : IsName (Utf8.encode shareName))
    (hholds : ShareHolds s shareName []) (root : String) (added : UInt32) {t : DirTree}
    (w : Walk t) :
    Scanned s (Shares.scanLoop root shareName s added w.items).1 shareName
      (visitedFiles shareName w.items) := by
  have hstart : Scanned s s shareName [] :=
    ⟨h, hholds, rfl, SameOutside.refl s shareName, by simp, by simp⟩
  have hrun := scanLoop_rule hname (R := fun s' l ↦ Scanned s s' shareName l)
    (fun s' l names len hR hne hnew hutf ↦ hR.insert hname root hne hnew len hutf)
    hstart added w.items w.names_ne_nil (by simpa using w.once)
  rwa [List.nil_append] at hrun

end Loop

end HarddriveParty
