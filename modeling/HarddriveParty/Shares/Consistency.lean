import HarddriveParty.Shares.Names
import HarddriveParty.Shares.Sizes

/-!
# What the index says about the shares

A `View` says which files the last scan of each share visited. `Consistent` relates an
index to a view: the file tree holds exactly the visited files, and the directory tree
matches it. Removing a share and each turn of a scan keep the relation.
-/

namespace HarddriveParty

open UnixPath OrderedTree

/-- For each share, the files that its last scan visited, with their sizes. -/
abbrev View := String → Option (List (List Name × UInt64))

/-- The index key of a file: the share name joined with its path below the share. -/
def sharePath (shareName : String) (rel : List Name) : Bytes :=
  join (Utf8.encode shareName) (joinNames rel)

namespace View

/-- The last scan of a share visited this file. -/
def Visited (v : View) (shareName : String) (rel : List Name) (size : UInt64) : Prop :=
  ∃ l, v shareName = some l ∧ (rel, size) ∈ l

/-- Set what was visited for one share; `none` forgets the share. -/
def set (v : View) (shareName : String) (l : Option (List (List Name × UInt64))) : View :=
  Function.update v shareName l

@[simp] theorem set_self (v : View) (shareName : String)
    (l : Option (List (List Name × UInt64))) : v.set shareName l shareName = l :=
  Function.update_self ..

@[simp] theorem set_of_ne (v : View) {shareName other : String} (h : other ≠ shareName)
    (l : Option (List (List Name × UInt64))) : v.set shareName l other = v other :=
  Function.update_of_ne h ..

@[simp] theorem set_set (v : View) (shareName : String)
    (l m : Option (List (List Name × UInt64))) :
    (v.set shareName l).set shareName m = v.set shareName m :=
  Function.update_idem ..

/-- Other shares keep their files. -/
theorem visited_set_of_ne {v : View} {shareName other : String} (h : other ≠ shareName)
    {l : Option (List (List Name × UInt64))} {rel : List Name} {size : UInt64} :
    (v.set shareName l).Visited other rel size ↔ v.Visited other rel size := by
  rw [Visited, set_of_ne v h, Visited]

/-- The share that is set has the given files. -/
theorem visited_set_self {v : View} {shareName : String} {l : List (List Name × UInt64)}
    {rel : List Name} {size : UInt64} :
    (v.set shareName (some l)).Visited shareName rel size ↔ (rel, size) ∈ l := by
  rw [Visited, set_self]
  simp

/-- A share that is forgotten has no files; the others keep theirs. -/
theorem visited_set_none {v : View} {shareName name : String} {rel : List Name}
    {size : UInt64} : (v.set shareName none).Visited name rel size ↔
      name ≠ shareName ∧ v.Visited name rel size := by
  by_cases hn : name = shareName
  · subst hn
    simp [Visited]
  · rw [visited_set_of_ne hn, and_iff_right hn]

/-- A file that is added to a share is visited besides those before it. -/
theorem visited_set_append {v : View} {shareName name : String}
    {l : List (List Name × UInt64)} {names rel : List Name} {len size : UInt64} :
    (v.set shareName (some (l ++ [(names, len)]))).Visited name rel size ↔
      (v.set shareName (some l)).Visited name rel size ∨
        (name = shareName ∧ rel = names ∧ size = len) := by
  by_cases hn : name = shareName
  · subst hn
    simp [visited_set_self]
  · simp [visited_set_of_ne hn, hn]

/-- The shares after one is set. -/
theorem isSome_set_some {v : View} {shareName name : String} {l : List (List Name × UInt64)} :
    (v.set shareName (some l) name).isSome ↔ name = shareName ∨ (v name).isSome := by
  by_cases hn : name = shareName
  · subst hn
    simp
  · simp [hn]

/-- The shares after one is forgotten. -/
theorem isSome_set_none {v : View} {shareName name : String} :
    (v.set shareName none name).isSome ↔ name ≠ shareName ∧ (v name).isSome := by
  by_cases hn : name = shareName
  · subst hn
    simp
  · simp [hn]

/-- No share lists a file twice. -/
def Once (v : View) : Prop := ∀ name l, v name = some l → (l.map Prod.fst).Nodup

/-- Setting a share to a list without repetition. -/
theorem Once.set {v : View} (h : v.Once) (shareName : String)
    {l : Option (List (List Name × UInt64))} (hl : ∀ m, l = some m → (m.map Prod.fst).Nodup) :
    (v.set shareName l).Once := by
  intro name m hm
  by_cases hn : name = shareName
  · rw [hn, set_self] at hm
    exact hl m hm
  · rw [set_of_ne v hn] at hm
    exact h name m hm

end View

/-- The files of a walk that a scan indexes before it ends: those that are not
directories, up to the first item that ends the scan. -/
def visitedFiles (shareName : String) : List WalkItem → List (List Name × UInt64)
  | [] => []
  | .failed _ :: _ => []
  | .entry _ (.error _) _ :: _ => []
  | .entry names (.ok metadata) logged :: rest =>
    if metadata.isDir then visitedFiles shareName rest
    else if (Utf8.decode (sharePath shareName names)).isNone then []
    else (names, metadata.len) :: match logged with
      | .error _ => []
      | .ok () => visitedFiles shareName rest

/-- The index holds exactly the visited files and the directories above them. -/
structure Consistent (s : Shares) (v : View) : Prop where
  names : ∀ k, s.shareNames[k]?.isSome ↔ ∃ name, k = Utf8.encode name ∧ (v name).isSome
  valid : ∀ name, (v name).isSome → IsName (Utf8.encode name)
  paths : ∀ name rel size, v.Visited name rel size →
    rel ≠ [] ∧ (Utf8.decode (sharePath name rel)).isSome
  once : v.Once
  files : ∀ k b, s.files[k]? = some b ↔
    ∃ name rel size, v.Visited name rel size ∧ k = sharePath name rel ∧ b = Bytes.leU64 size
  dirs : DirsMatch s.files s.dirs

/-- A key of a share is a path of names. -/
theorem sharePath_eq {shareName : String} (h : IsName (Utf8.encode shareName))
    {rel : List Name} (hrel : rel ≠ []) :
    sharePath shareName rel = joinNames (⟨Utf8.encode shareName, h⟩ :: rel) := by
  have hone : [(⟨Utf8.encode shareName, h⟩ : Name)] ≠ [] := by simp
  have hj := join_joinNames hone hrel
  rw [joinNames_singleton] at hj
  exact hj

/-- Keys of files determine the share and the path below it. -/
theorem sharePath_inj {name name' : String} {rel rel' : List Name}
    (hname : IsName (Utf8.encode name)) (hname' : IsName (Utf8.encode name'))
    (hrel : rel ≠ []) (hrel' : rel' ≠ []) :
    sharePath name rel = sharePath name' rel' ↔ name = name' ∧ rel = rel' := by
  rw [sharePath_eq hname hrel, sharePath_eq hname' hrel', joinNames_inj, List.cons.injEq,
    Subtype.mk.injEq, Utf8.encode_inj]

/-- A part of a UTF-8 path of names is UTF-8. -/
theorem decode_joinNames_of_prefix {ns ms : List Name} (hm : ms <+: ns)
    (h : (Utf8.decode (joinNames ns)).isSome) : (Utf8.decode (joinNames ms)).isSome := by
  by_cases hne : ms = []
  · subst hne
    rfl
  · rcases (joinNames_prefix_iff hne).mp hm with he | ⟨t, ht⟩
    · rwa [he] at h
    · obtain ⟨str, hstr⟩ := Option.isSome_iff_exists.mp h
      rw [← ht, List.append_assoc, List.singleton_append] at hstr
      obtain ⟨x, -, hx, -⟩ := Utf8.decode_split_ascii (by decide) hstr
      rw [hx]
      rfl

private theorem parent_sharePath {shareName : String} (hname : IsName (Utf8.encode shareName))
    {names : List Name} (hne : names ≠ []) :
    parent (sharePath shareName names) =
      some (joinNames (⟨Utf8.encode shareName, hname⟩ :: names).dropLast) := by
  rw [sharePath_eq hname hne]
  conv_lhs => rw [← List.dropLast_append_getLast (List.cons_ne_nil
    (⟨Utf8.encode shareName, hname⟩ : Name) names)]
  exact parent_joinNames_concat _ _

private theorem decode_ancestors {ns : List Name} (h : (Utf8.decode (joinNames ns)).isSome) :
    ∀ k ∈ ancestors (joinNames ns.dropLast), (Utf8.decode k).isSome := by
  intro k hk
  rw [ancestors_joinNames, List.mem_map] at hk
  obtain ⟨ms, hms, rfl⟩ := hk
  rw [List.mem_reverse, List.mem_inits] at hms
  exact decode_joinNames_of_prefix (hms.trans (List.dropLast_prefix _)) h

/-- A file with a UTF-8 path is inserted, and its size is added to the directories above. -/
theorem scanFile_insert {shareName : String} (hname : IsName (Utf8.encode shareName))
    (root : String) {names : List Name} (hne : names ≠ []) (len : UInt64)
    (hdec : (Utf8.decode (sharePath shareName names)).isSome) (s : Shares) :
    ∃ dirs', Shares.scanFile root shareName s names len =
        ({ s with dirs := dirs'
                  files := s.files.insert (sharePath shareName names) (Bytes.leU64 len) },
          .ok ()) ∧
      ∀ k, dirs'[k]? = if k ∈ ancestors
          (joinNames (⟨Utf8.encode shareName, hname⟩ :: names).dropLast) then
        additionMerge k s.dirs[k]? (Bytes.leU64 len) else s.dirs[k]? := by
  have hutf := hdec
  rw [sharePath_eq hname hne] at hutf
  obtain ⟨dirs', hmerge, hget⟩ := mergeAncestors_spec (Bytes.leU64 len) s.dirs _
    (nodup_ancestors _) (decode_ancestors hutf)
  obtain ⟨filepath, hpath⟩ := Option.isSome_iff_exists.mp hdec
  have hfile := Utf8.encode_of_decode hpath
  have hparent := parent_sharePath hname hne
  have hstrip : stripPrefix (entryPath (Utf8.encode root) names) (Utf8.encode root) =
      some (joinNames names) := stripPrefix_foldl_join _ _
  refine ⟨dirs', ?_, hget⟩
  rw [sharePath] at hpath hparent
  simp only [Shares.scanFile, hstrip, hpath, hparent, hmerge, hfile]

/-- A file whose path is not UTF-8 is not indexed. -/
theorem scanFile_notUtf8 {shareName : String} {names : List Name}
    (hdec : Utf8.decode (sharePath shareName names) = none) (root : String) (len : UInt64)
    (s : Shares) :
    Shares.scanFile root shareName s names len = (s, .error .osStringError) := by
  have hstrip : stripPrefix (entryPath (Utf8.encode root) names) (Utf8.encode root) =
      some (joinNames names) := stripPrefix_foldl_join _ _
  rw [sharePath] at hdec
  simp only [Shares.scanFile, hstrip, hdec]

/-- A walk reports no entry with an empty path. -/
theorem Walk.names_ne_nil {t : DirTree} (w : Walk t) :
    ∀ names ∈ w.items.filterMap WalkItem.names?, names ≠ [] := by
  intro names hmem
  obtain ⟨item, hitem, hnames⟩ := List.mem_filterMap.mp hmem
  have hfrom := w.fromTree item hitem
  cases item with
  | failed e => cases hnames
  | entry names' metadata logged =>
    cases hnames
    cases metadata with
    | ok metadata => exact t.ne_nil _ hfrom
    | error e =>
      obtain ⟨entry, hentry, rfl⟩ := List.mem_map.mp hfrom
      exact t.ne_nil _ hentry

/-- The induction rule of the scan loop: a relation between the index and the files indexed so
far that every newly indexed file keeps holds at the end for all files visited. -/
theorem scanLoop_rule {shareName root : String} (hname : IsName (Utf8.encode shareName))
    {R : Shares → List (List Name × UInt64) → Prop}
    (hstep : ∀ s l names len, R s l → names ≠ [] → names ∉ l.map Prod.fst →
      (Utf8.decode (sharePath shareName names)).isSome →
        R (Shares.scanFile root shareName s names len).1 (l ++ [(names, len)]))
    {s : Shares} {l : List (List Name × UInt64)} (h : R s l) (added : UInt32)
    (items : List WalkItem) (hne : ∀ names ∈ items.filterMap WalkItem.names?, names ≠ [])
    (hnodup : (l.map Prod.fst ++ items.filterMap WalkItem.names?).Nodup) :
    R (Shares.scanLoop root shareName s added items).1 (l ++ visitedFiles shareName items) := by
  induction items generalizing s l added with
  | nil => simpa [Shares.scanLoop, visitedFiles] using h
  | cons item rest ih =>
    cases item with
    | failed e => simpa [Shares.scanLoop, Shares.scanEntry, visitedFiles] using h
    | entry names metadata logged =>
      cases metadata with
      | error e => simpa [Shares.scanLoop, Shares.scanEntry, visitedFiles] using h
      | ok metadata =>
        have hnames : (WalkItem.entry names (.ok metadata) logged :: rest).filterMap
            WalkItem.names? = names :: rest.filterMap WalkItem.names? := rfl
        rw [hnames] at hne hnodup
        have hrest : ∀ ns ∈ rest.filterMap WalkItem.names?, ns ≠ [] :=
          fun ns hns ↦ hne ns (List.mem_cons_of_mem _ hns)
        cases hdir : metadata.isDir with
        | true =>
          have hsub : (l.map Prod.fst ++ rest.filterMap WalkItem.names?).Nodup :=
            hnodup.sublist ((List.Sublist.refl _).append (List.sublist_cons_self _ _))
          simpa [Shares.scanLoop, Shares.scanEntry, visitedFiles, hdir] using
            ih h (added + 0) hrest hsub
        | false =>
          have hnew : names ∉ l.map Prod.fst := fun hmem ↦
            (List.nodup_append.mp hnodup).2.2 names hmem names (by simp) rfl
          cases hdec : Utf8.decode (sharePath shareName names) with
          | none =>
            have hrun := scanFile_notUtf8 hdec root metadata.len s
            simpa [Shares.scanLoop, Shares.scanEntry, visitedFiles, hdir, hdec, hrun] using h
          | some path =>
            have hutf : (Utf8.decode (sharePath shareName names)).isSome := by rw [hdec]; rfl
            have hnext := hstep s l names metadata.len h (hne names (by simp)) hnew hutf
            obtain ⟨dirs', hrun, -⟩ :=
              scanFile_insert hname root (hne names (by simp)) metadata.len hutf s
            rw [hrun] at hnext
            cases logged with
            | error e =>
              simpa [Shares.scanLoop, Shares.scanEntry, visitedFiles, hdir, hdec, hrun] using hnext
            | ok u =>
              have hnodup' : ((l ++ [(names, metadata.len)]).map Prod.fst ++
                  rest.filterMap WalkItem.names?).Nodup := by
                simpa [List.append_assoc] using hnodup
              simpa [Shares.scanLoop, Shares.scanEntry, visitedFiles, hdir, hdec, hrun] using
                ih hnext (added + 1) hrest hnodup'

/-- A removal that finds a recorded directory. -/
theorem removeShareDir_of_getDirSize {s : Shares} {shareName : String} {existingSize : UInt64}
    (hget : s.getDirSize shareName = some existingSize) :
    s.removeShareDir shareName =
      ({ files := Shares.removeMatching s.files shareName
         dirs := Shares.removeMatching (update s.dirs [] fun rootSizeOption ↦
           some (Bytes.leU64 (Shares.rootSizeWithout existingSize rootSizeOption))) shareName
         shareNames := s.shareNames.erase (Utf8.encode shareName) }, .ok ()) := by
  rw [Shares.removeShareDir, hget]

/-- A removal that finds no recorded directory. -/
theorem removeShareDir_of_none {s : Shares} {shareName : String}
    (hget : s.getDirSize shareName = none) :
    s.removeShareDir shareName = (s, .error .noShare) := by
  rw [Shares.removeShareDir, hget]

namespace Consistent

variable {s : Shares} {v : View}

/-- A visited file belongs to a share with a valid name. -/
theorem isName_of_visited (h : Consistent s v) {name : String} {rel : List Name}
    {size : UInt64} (hv : v.Visited name rel size) : IsName (Utf8.encode name) := by
  obtain ⟨l, hl, -⟩ := hv
  exact h.valid name (by rw [hl]; rfl)

/-- A key determines the share, the file and its size. -/
theorem visited_unique (h : Consistent s v) {name name' : String} {rel rel' : List Name}
    {size size' : UInt64} (hv : v.Visited name rel size) (hv' : v.Visited name' rel' size')
    (hk : sharePath name rel = sharePath name' rel') :
    name = name' ∧ rel = rel' ∧ size = size' := by
  rw [sharePath_inj (h.isName_of_visited hv) (h.isName_of_visited hv') (h.paths _ _ _ hv).1
    (h.paths _ _ _ hv').1] at hk
  obtain ⟨rfl, rfl⟩ := hk
  refine ⟨rfl, rfl, ?_⟩
  obtain ⟨l, hl, hmem⟩ := hv
  obtain ⟨l', hl', hmem'⟩ := hv'
  rw [hl] at hl'
  cases hl'
  have heq := List.inj_on_of_nodup_map (h.once name l hl) hmem hmem' rfl
  exact (Prod.mk.inj heq).2

/-- Every key of the file tree lies in a share. -/
theorem filesInShares (h : Consistent s v) : FilesInShares s.files := by
  intro f hf
  obtain ⟨b, hb⟩ := Option.isSome_iff_exists.mp hf
  obtain ⟨name, rel, size, hv, rfl, -⟩ := (h.files f b).mp hb
  obtain ⟨hrel, -⟩ := h.paths _ _ _ hv
  refine ⟨⟨Utf8.encode name, h.isName_of_visited hv⟩ :: rel, ?_,
    sharePath_eq (h.isName_of_visited hv) hrel⟩
  have hpos := List.length_pos_iff.mpr hrel
  rw [List.length_cons]
  omega

/-- The file of a share belongs to that share only. -/
theorem shareKeyMatches_sharePath {name shareName : String} {rel : List Name}
    (hname : IsName (Utf8.encode name)) (hshare : IsName (Utf8.encode shareName))
    (hrel : rel ≠ []) :
    shareKeyMatches (sharePath name rel) shareName = true ↔ name = shareName := by
  rw [sharePath_eq hname hrel, shareKeyMatches_joinNames hshare, List.cons_prefix_cons,
    and_iff_left List.nil_prefix, Subtype.mk.injEq, Utf8.encode_inj, eq_comm]

/-- The empty index. -/
theorem empty : Consistent Shares.empty (fun _ ↦ none) where
  names := by simp [Shares.empty]
  valid := by simp
  paths := by simp [View.Visited]
  once := fun _ _ heq ↦ by cases heq
  files := by simp [Shares.empty, View.Visited]
  dirs := dirsMatch_empty

/-- A share without a recorded size has no files. -/
theorem not_visited_of_getDirSize (h : Consistent s v) {shareName : String}
    (hget : s.getDirSize shareName = none) (rel : List Name) (size : UInt64) :
    ¬ v.Visited shareName rel size := by
  intro hv
  have hname := h.isName_of_visited hv
  obtain ⟨hrel, -⟩ := h.paths _ _ _ hv
  have hkey := (h.files _ _).mpr ⟨shareName, rel, size, hv, rfl, rfl⟩
  have hbelow : HasBelow s.files (joinNames [⟨Utf8.encode shareName, hname⟩]) := by
    refine ⟨sharePath shareName rel, by rw [hkey]; rfl, ?_⟩
    rw [sharePath_eq hname hrel, isAncestor_joinNames]
    exact ⟨by simp, by simpa using hrel.symm⟩
  obtain ⟨b, hb⟩ := Option.isSome_iff_exists.mp (h.dirs.present _ hbelow)
  have hsize := h.dirs.size _ b hb
  rw [joinNames_singleton] at hb
  rw [Shares.getDirSize, hb, hsize] at hget
  simp at hget

/-- Removing a share takes its files out and leaves those of the other shares. A share
without a recorded size is not found, and has no files. -/
theorem removeShareDir (h : Consistent s v) {shareName : String}
    (hname : IsName (Utf8.encode shareName)) :
    (s.removeShareDir shareName = (s, .error .noShare) ∧
      ∀ rel size, ¬ v.Visited shareName rel size) ∨
    ((s.removeShareDir shareName).2 = .ok () ∧
      Consistent (s.removeShareDir shareName).1 (v.set shareName none)) := by
  cases hget : s.getDirSize shareName with
  | none =>
    left
    exact ⟨removeShareDir_of_none hget, h.not_visited_of_getDirSize hget⟩
  | some existingSize =>
    right
    rw [removeShareDir_of_getDirSize hget]
    refine ⟨rfl, ?_, ?_, ?_, h.once.set shareName (fun _ heq ↦ by cases heq), ?_,
      h.dirs.remove h.filesInShares hname hget⟩
    · intro k
      simp only [getElem?_erase, View.isSome_set_none]
      split
      · next hk =>
        simp only [hk, Utf8.encode_inj, Option.isSome_none, Bool.false_eq_true, false_iff]
        rintro ⟨name, rfl, hne, -⟩
        exact hne rfl
      · next hk =>
        rw [h.names]
        apply exists_congr
        intro name
        apply and_congr_right
        rintro rfl
        rw [and_iff_right fun he ↦ hk (congrArg Utf8.encode he)]
    · intro name hv
      exact h.valid name (View.isSome_set_none.mp hv).2
    · intro name rel size hv
      exact h.paths name rel size (View.visited_set_none.mp hv).2
    · intro k b
      rw [getElem?_removeMatching]
      constructor
      · intro hb
        split at hb
        · cases hb
        · next hkeep =>
          obtain ⟨name, rel, size, hv, rfl, rfl⟩ := (h.files k b).mp hb
          refine ⟨name, rel, size, View.visited_set_none.mpr ⟨?_, hv⟩, rfl, rfl⟩
          rintro rfl
          exact hkeep ((shareKeyMatches_sharePath hname hname (h.paths _ _ _ hv).1).mpr rfl)
      · rintro ⟨name, rel, size, hv, rfl, rfl⟩
        obtain ⟨hne, hv⟩ := View.visited_set_none.mp hv
        rw [if_neg]
        · exact (h.files _ _).mpr ⟨name, rel, size, hv, rfl, rfl⟩
        · rw [shareKeyMatches_sharePath (h.isName_of_visited hv) hname (h.paths _ _ _ hv).1]
          exact hne

/-- Recording the path of a share without files adds the share. -/
theorem insertShare (h : Consistent s v) {shareName : String}
    (hname : IsName (Utf8.encode shareName))
    (hno : ∀ rel size, ¬ v.Visited shareName rel size) (path : Bytes) :
    Consistent { s with shareNames := s.shareNames.insert (Utf8.encode shareName) path }
      (v.set shareName (some [])) := by
  have hvis : ∀ name rel size, (v.set shareName (some [])).Visited name rel size ↔
      v.Visited name rel size := by
    intro name rel size
    by_cases hn : name = shareName
    · subst hn
      simp [View.visited_set_self, hno]
    · exact View.visited_set_of_ne hn
  refine ⟨fun k ↦ ?_, fun name hv ↦ ?_, fun name rel size hv ↦ ?_,
    h.once.set shareName ?_, fun k b ↦ ?_, h.dirs⟩
  · simp only [getElem?_insert, View.isSome_set_some]
    split
    · next hk =>
      simp only [hk, Option.isSome_some, true_iff]
      exact ⟨shareName, rfl, Or.inl rfl⟩
    · next hk =>
      rw [h.names]
      apply exists_congr
      intro name
      apply and_congr_right
      rintro rfl
      rw [or_iff_right fun he ↦ hk (congrArg Utf8.encode he)]
  · cases View.isSome_set_some.mp hv with
    | inl hn => exact hn ▸ hname
    | inr hv => exact h.valid name hv
  · exact h.paths name rel size ((hvis name rel size).mp hv)
  · rintro m ⟨⟩
    exact List.nodup_nil
  · simp only [hvis]
    exact h.files k b

/-! ### Indexing a file -/

/-- A path that the scan has not met yet is no key of the file tree. -/
private theorem fresh_sharePath {shareName : String} {l : List (List Name × UInt64)}
    (h : Consistent s (v.set shareName (some l))) {names : List Name} (hne : names ≠ [])
    (hnew : names ∉ l.map Prod.fst) : s.files[sharePath shareName names]? = none := by
  have hname : IsName (Utf8.encode shareName) := h.valid shareName (by simp)
  cases hb : s.files[sharePath shareName names]? with
  | none => rfl
  | some b =>
    obtain ⟨name, rel, size, hv, hk, -⟩ := (h.files _ _).mp hb
    obtain ⟨rfl, rfl⟩ := (sharePath_inj hname (h.isName_of_visited hv) hne
      (h.paths _ _ _ hv).1).mp hk
    rw [View.visited_set_self] at hv
    exact absurd (List.mem_map_of_mem hv) hnew

/-- The index with one more file of a share. -/
private theorem insertFile {shareName : String} {l : List (List Name × UInt64)}
    (h : Consistent s (v.set shareName (some l))) {names : List Name} (hne : names ≠ [])
    (hnew : names ∉ l.map Prod.fst) {len : UInt64}
    (hdec : (Utf8.decode (sharePath shareName names)).isSome) {dirs' : Tree}
    (hdirs : DirsMatch (s.files.insert (sharePath shareName names) (Bytes.leU64 len)) dirs') :
    Consistent { s with dirs := dirs'
                        files := s.files.insert (sharePath shareName names) (Bytes.leU64 len) }
      (v.set shareName (some (l ++ [(names, len)]))) := by
  have honce : (v.set shareName (some (l ++ [(names, len)]))).Once := by
    rw [← View.set_set v shareName (some l)]
    apply h.once.set
    rintro m ⟨⟩
    have hl := h.once shareName l (View.set_self ..)
    rw [List.map_append, List.map_singleton, ← List.concat_eq_append]
    exact hl.concat hnew
  refine ⟨fun k ↦ ?_, fun name hv ↦ ?_, fun name rel size hv ↦ ?_, honce, fun k b ↦ ?_, hdirs⟩
  · rw [h.names]
    simp only [View.isSome_set_some]
  · exact h.valid name (View.isSome_set_some.mpr (View.isSome_set_some.mp hv))
  · cases View.visited_set_append.mp hv with
    | inl hold => exact h.paths name rel size hold
    | inr hnow =>
      obtain ⟨rfl, rfl, rfl⟩ := hnow
      exact ⟨hne, hdec⟩
  · simp only [getElem?_insert, View.visited_set_append]
    constructor
    · intro hb
      split at hb
      · next hk =>
        cases hb
        exact ⟨shareName, names, len, Or.inr ⟨rfl, rfl, rfl⟩, hk, rfl⟩
      · obtain ⟨name, rel, size, hv, hk, hsize⟩ := (h.files k b).mp hb
        exact ⟨name, rel, size, Or.inl hv, hk, hsize⟩
    · rintro ⟨name, rel, size, hv, rfl, rfl⟩
      cases hv with
      | inl hv =>
        have hold := (h.files _ _).mpr ⟨name, rel, size, hv, rfl, rfl⟩
        rw [if_neg, hold]
        intro hk
        rw [hk, h.fresh_sharePath hne hnew] at hold
        cases hold
      | inr hv =>
        obtain ⟨rfl, rfl, rfl⟩ := hv
        exact if_pos rfl

/-- Indexing a file that the scan has not met yet adds it to the share, or fails and
changes nothing when its path is not UTF-8. -/
theorem scanFile {shareName : String} {l : List (List Name × UInt64)}
    (h : Consistent s (v.set shareName (some l))) (root : String) {names : List Name}
    (hne : names ≠ []) (hnew : names ∉ l.map Prod.fst) (len : UInt64) :
    ((Utf8.decode (sharePath shareName names)).isNone = true ∧
      Shares.scanFile root shareName s names len = (s, .error .osStringError)) ∨
    ((Utf8.decode (sharePath shareName names)).isNone = false ∧
      (Shares.scanFile root shareName s names len).2 = .ok () ∧
      Consistent (Shares.scanFile root shareName s names len).1
        (v.set shareName (some (l ++ [(names, len)])))) := by
  have hname : IsName (Utf8.encode shareName) := h.valid shareName (by simp)
  cases hdec : Utf8.decode (sharePath shareName names) with
  | none =>
    exact Or.inl ⟨rfl, scanFile_notUtf8 hdec root len s⟩
  | some filepath =>
    have hutf : (Utf8.decode (sharePath shareName names)).isSome := by rw [hdec]; rfl
    obtain ⟨dirs', hrun, hget⟩ := scanFile_insert hname root hne len hutf s
    have hdirs : DirsMatch
        (s.files.insert (sharePath shareName names) (Bytes.leU64 len)) dirs' := by
      have hfresh := h.fresh_sharePath hne hnew
      rw [sharePath_eq hname hne] at hfresh ⊢
      exact h.dirs.insert (List.cons_ne_nil _ _) hfresh len hget
    rw [hrun]
    exact Or.inr ⟨rfl, rfl, h.insertFile hne hnew hutf hdirs⟩

end Consistent

end HarddriveParty
