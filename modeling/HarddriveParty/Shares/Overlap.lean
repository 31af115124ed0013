import HarddriveParty.Shares.Removal

/-!
# Overlapping share requests

The handlers of `PUT /shares` and `DELETE /shares` in `src/ui_server/api.rs` work on one
index without a lock. A scan gives up control before every entry of its walk, and other
handlers may run there. Each file that a scan adds is added to the sizes above it whether or
not it is indexed already, and whether or not its share is still there.
-/

namespace HarddriveParty

open UnixPath OrderedTree Runs

/-- A handler between two points where it gives up control. -/
inductive ShareHandler where
  | putShares (shareDir : String) (t : DirTree) (w : Walk t)
  | scanning (root shareName : String) (addedEntries : UInt32) (items : List WalkItem)
  | scanned (answer : Outcome ScanDirError UInt32)
  | deleteShares (shareName : String)
  | deleted (answer : Except ScanDirError Unit)

namespace ShareHandler

/-- A handler runs until it gives up control again (`src/ui_server/api.rs:255`,
`src/shares.rs:49`). -/
def next (s : Shares) : ShareHandler → Shares × ShareHandler
  | putShares shareDir _ w =>
    match s.scanStart shareDir with
    | (s, .error e) => (s, scanned (.error e))
    | (s, .ok shareName) => (s, scanning shareDir shareName 0 w.items)
  | scanning _ _ addedEntries [] => (s, scanned (.ok addedEntries))
  | scanning root shareName addedEntries (item :: rest) =>
    match Shares.scanEntry root shareName s item with
    | (s, .error e) => (s, scanned (.error (.error e)))
    | (s, .ok added) => (s, scanning root shareName (addedEntries + added) rest)
  | deleteShares shareName =>
    ((s.removeShareDir shareName).1, deleted (s.removeShareDir shareName).2)
  | scanned answer => (s, scanned answer)
  | deleted answer => (s, deleted answer)

/-- The handler has been called; a share to delete is named by a name. -/
def Called : ShareHandler → Prop
  | putShares _ _ _ => True
  | deleteShares shareName => IsName (Utf8.encode shareName)
  | _ => False

/-- The handler has finished. -/
def finished : ShareHandler → Bool
  | scanned _ => true
  | deleted _ => true
  | _ => false

/-- If the handler is about to index a file, then its share is there, the file counts for
nothing yet, and the sizes add up to a `u64`. -/
def Undisturbed (s : Shares) : ShareHandler → Prop
  | scanning _ shareName _ (.entry names (.ok metadata) _ :: _) =>
    metadata.isDir = false → (Utf8.decode (sharePath shareName names)).isSome →
      (s.shareNames[Utf8.encode shareName]?).isSome ∧
        fileSize s.files (sharePath shareName names) = 0 ∧
          totalSize s.files + metadata.len.toNat < 2 ^ 64
  | _ => True

instance (s : Shares) : DecidablePred (Undisturbed s)
  | scanning _ _ _ (.entry _ (.ok _) _ :: _) => inferInstanceAs (Decidable (_ → _ → _ ∧ _ ∧ _))
  | scanning _ _ _ (.entry _ (.error _) _ :: _) => isTrue trivial
  | scanning _ _ _ (.failed _ :: _) => isTrue trivial
  | scanning _ _ _ [] => isTrue trivial
  | putShares _ _ _ => isTrue trivial
  | scanned _ => isTrue trivial
  | deleteShares _ => isTrue trivial
  | deleted _ => isTrue trivial

end ShareHandler

/-- The handlers that run on one index. -/
structure ShareHandlers where
  index : Shares
  handlers : List ShareHandler

namespace ShareHandlers

/-- The `i`-th handler runs until it gives up control. -/
def step (st : ShareHandlers) (i : Nat) : ShareHandlers :=
  match st.handlers[i]? with
  | none => st
  | some handler =>
    ⟨(handler.next st.index).1, st.handlers.set i (handler.next st.index).2⟩

/-- The `i`-th handler is undisturbed. -/
def Undisturbed (st : ShareHandlers) (i : Nat) : Prop :=
  ∀ handler, st.handlers[i]? = some handler → handler.Undisturbed st.index

instance (st : ShareHandlers) : DecidablePred st.Undisturbed := fun i ↦
  inferInstanceAs (Decidable (∀ handler ∈ st.handlers[i]?, handler.Undisturbed st.index))

end ShareHandlers

/-- Every recorded directory has the sum of the sizes of the files below it, and every file
starts with the name of a share. -/
structure IndexConsistent (s : Shares) : Prop where
  sizes : ∀ d b : Bytes, s.dirs[d]? = some b →
    ∃ size : UInt64, b = Bytes.leU64 size ∧ size.toNat = sizeBelow s.files d
  shares : ∀ f, (s.files[f]?).isSome → ∃ name rest,
    components f = .normal name :: rest ∧ (s.shareNames[name]?).isSome

section Alone

/-- A handler and its index after the handler has run once. -/
def ShareHandler.turn (p : Shares × ShareHandler) : Shares × ShareHandler := p.2.next p.1

private theorem turns_scanning (s : Shares) (root shareName : String) (addedEntries : UInt32)
    (items : List WalkItem) : ∃ n, ShareHandler.turn^[n]
        (s, .scanning root shareName addedEntries items) =
      ((Shares.scanLoop root shareName s addedEntries items).1,
        .scanned ((Shares.scanLoop root shareName s addedEntries items).2.mapError .error)) := by
  induction items generalizing s addedEntries with
  | nil => exact ⟨1, rfl⟩
  | cons item rest ih =>
    rcases hentry : Shares.scanEntry root shareName s item with ⟨s', r⟩
    cases r with
    | error e =>
      refine ⟨1, ?_⟩
      simp [ShareHandler.turn, ShareHandler.next, Shares.scanLoop, hentry, Except.mapError]
    | ok added =>
      obtain ⟨n, hn⟩ := ih s' (addedEntries + added)
      refine ⟨n + 1, ?_⟩
      rw [Function.iterate_succ_apply]
      simpa [ShareHandler.turn, ShareHandler.next, Shares.scanLoop, hentry] using hn

/-- A handler that runs alone scans its directory as `Shares.scan` does. -/
theorem turns_putShares (s : Shares) (shareDir : String) {t : DirTree} (w : Walk t) :
    ∃ n, ShareHandler.turn^[n] (s, .putShares shareDir t w) =
      ((s.scan shareDir w.items).1, .scanned (s.scan shareDir w.items).2) := by
  rcases hstart : s.scanStart shareDir with ⟨s', r⟩
  cases r with
  | error e =>
    refine ⟨1, ?_⟩
    simp [ShareHandler.turn, ShareHandler.next, Shares.scan, hstart]
  | ok shareName =>
    obtain ⟨n, hn⟩ := turns_scanning s' shareDir shareName 0 w.items
    refine ⟨n + 1, ?_⟩
    rw [Function.iterate_succ_apply]
    have hturn : ShareHandler.turn (s, .putShares shareDir t w) =
        (s', .scanning shareDir shareName 0 w.items) := by
      simp [ShareHandler.turn, ShareHandler.next, hstart]
    rw [hturn, hn]
    rcases hloop : Shares.scanLoop shareDir shareName s' 0 w.items with ⟨s'', r⟩
    cases r with
    | error e => simp [Shares.scan, hstart, hloop, Except.mapError]
    | ok added => simp [Shares.scan, hstart, hloop, Except.mapError]

end Alone

/-- What undisturbed handlers keep: the directories match the files, every file lies in a share
that is there, and the sizes add up to a `u64`. -/
structure Sound (s : Shares) : Prop where
  names : ∀ k, (s.shareNames[k]?).isSome → IsName k
  dirs : DirsMatch s.files s.dirs
  owned : ∀ f, (s.files[f]?).isSome → ∃ (name : Name) (rest : List Name),
    rest ≠ [] ∧ f = joinNames (name :: rest) ∧ (s.shareNames[name.val]?).isSome
  total : totalSize s.files < 2 ^ 64

namespace Sound

variable {s : Shares} {shareName : String}

/-- Every file lies below a share. -/
theorem filesInShares (h : Sound s) : FilesInShares s.files := by
  intro f hf
  obtain ⟨name, rest, hrest, rfl, -⟩ := h.owned f hf
  refine ⟨_, ?_, rfl⟩
  have hpos := List.length_pos_iff.mpr hrest
  rw [List.length_cons]
  omega

/-- A sound index is consistent. -/
theorem indexConsistent (h : Sound s) : IndexConsistent s where
  sizes d b hb := by
    refine ⟨_, h.dirs.size d b hb, ?_⟩
    rw [UInt64.toNat_ofNat']
    exact Nat.mod_eq_of_lt (Nat.lt_of_le_of_lt (sizeBelow_le_totalSize _ _) h.total)
  shares f hf := by
    obtain ⟨name, rest, -, rfl, hshare⟩ := h.owned f hf
    exact ⟨name.val, rest.map fun n ↦ .normal n.val, components_joinNames _, hshare⟩

/-- A consistent index that was reached by scans and removals is sound. -/
theorem of_consistent {v : View} (h : Consistent s v) (hs : IndexConsistent s) : Sound s := by
  refine ⟨fun k hk ↦ h.isName_key hk, h.dirs, fun f hf ↦ ?_, ?_⟩
  · obtain ⟨b, hb⟩ := Option.isSome_iff_exists.mp hf
    obtain ⟨name, rel, size, hv, rfl, -⟩ := (h.files f b).mp hb
    have hname := h.isName_of_visited hv
    obtain ⟨hrel, -⟩ := h.paths _ _ _ hv
    refine ⟨⟨Utf8.encode name, hname⟩, rel, hrel, sharePath_eq hname hrel, ?_⟩
    obtain ⟨l, hl, -⟩ := hv
    exact (h.names _).mpr ⟨name, rfl, by rw [hl]; rfl⟩
  · by_cases hroot : HasBelow s.files (joinNames [])
    · obtain ⟨b, hb⟩ := Option.isSome_iff_exists.mp (h.dirs.present [] hroot)
      obtain ⟨size, -, hsize⟩ := hs.sizes _ b hb
      rw [joinNames_nil, sizeBelow_root h.filesInShares] at hsize
      rw [← hsize]
      exact size.toNat_lt
    · have hzero : totalSize s.files = 0 := by
        rw [← sizeBelow_root h.filesInShares]
        exact sizeBelow_eq_zero hroot
      rw [hzero]
      exact Nat.two_pow_pos 64

/-- Removing a share keeps an index sound. -/
theorem removeShareDir (h : Sound s) (hname : IsName (Utf8.encode shareName)) :
    Sound (s.removeShareDir shareName).1 := by
  cases hget : s.getDirSize shareName with
  | none =>
    rw [removeShareDir_of_none hget]
    exact h
  | some existingSize =>
    rw [removeShareDir_of_getDirSize hget]
    refine ⟨forall_keys_erase h.names _, h.dirs.remove h.filesInShares hname hget,
      fun f hf ↦ ?_, ?_⟩
    · simp only [getElem?_removeMatching] at hf
      split at hf
      · cases hf
      · next hkeep =>
        obtain ⟨name, rest, hrest, rfl, hshare⟩ := h.owned f hf
        refine ⟨name, rest, hrest, rfl, ?_⟩
        simp only [getElem?_erase]
        rw [if_neg]
        · exact hshare
        · intro he
          rw [shareKeyMatches_joinNames hname] at hkeep
          exact hkeep ⟨rest, congrArg (· :: rest) (Subtype.ext he.symm)⟩
    · apply Nat.lt_of_le_of_lt _ h.total
      show totalSize (Shares.removeMatching s.files shareName) ≤ _
      rw [totalSize, removeMatching_eq_filter, weight_filter]
      apply weight_mono
      intro f value _
      split
      · exact Nat.le_refl _
      · exact Nat.zero_le _

/-- Recording the path of a share keeps an index sound. -/
theorem insertShare (h : Sound s) (hname : IsName (Utf8.encode shareName)) (path : Bytes) :
    Sound { s with shareNames := s.shareNames.insert (Utf8.encode shareName) path } := by
  refine ⟨forall_keys_insert h.names hname path, h.dirs, fun f hf ↦ ?_, h.total⟩
  · obtain ⟨name, rest, hrest, rfl, hshare⟩ := h.owned f hf
    refine ⟨name, rest, hrest, rfl, ?_⟩
    simp only [getElem?_insert]
    split
    · rfl
    · exact hshare

/-- The start of a scan keeps an index sound, and chooses a name. -/
theorem scanStart (h : Sound s) (root : String) :
    Sound (s.scanStart root).1 ∧
      ∀ shareName, (s.scanStart root).2 = .ok shareName → IsName (Utf8.encode shareName) := by
  cases hname : Shares.shareNameForPath s.shareNames root with
  | error e =>
    simp only [Shares.scanStart, hname]
    refine ⟨h, fun shareName hok ↦ ?_⟩
    cases hok
  | ok shareName =>
    have hvalid := isName_shareNameForPath h.names hname
    have hremoved := h.removeShareDir hvalid
    cases hget : s.getDirSize shareName with
    | none =>
      simp only [Shares.scanStart, hname, removeShareDir_of_none hget]
      refine ⟨h.insertShare hvalid _, fun name hok ↦ ?_⟩
      cases hok
      exact hvalid
    | some existingSize =>
      rw [removeShareDir_of_getDirSize hget] at hremoved
      simp only [Shares.scanStart, hname, removeShareDir_of_getDirSize hget]
      refine ⟨hremoved.insertShare hvalid _, fun name hok ↦ ?_⟩
      cases hok
      exact hvalid

end Sound

section IndexFile

variable {s : Shares} {shareName : String} {names : List Name} {len : UInt64} {dirs' : Tree}

private theorem fileSize_lt (files : Tree) (f : Bytes) : fileSize files f < 2 ^ 64 := by
  unfold fileSize
  cases files[f]? with
  | none => exact Nat.two_pow_pos 64
  | some value => exact UInt64.toNat_lt _

private theorem totalSize_insert (files : Tree) (f : Bytes) (size : UInt64) :
    totalSize (files.insert f (Bytes.leU64 size)) + fileSize files f =
      totalSize files + size.toNat := by
  have h := weight_insert_add files (fun _ value ↦ recordedSize value) f (Bytes.leU64 size)
  rw [recordedSize_leU64] at h
  exact h

/-- Indexing a file keeps a sound index sound if its share is there, the file counts for
nothing and its size fits. -/
private theorem Sound.write (h : Sound s) (hname : IsName (Utf8.encode shareName))
    (hne : names ≠ [])
    (hget : ∀ k, dirs'[k]? = if k ∈ ancestors
        (joinNames (⟨Utf8.encode shareName, hname⟩ :: names).dropLast) then
      additionMerge k s.dirs[k]? (Bytes.leU64 len) else s.dirs[k]?)
    (hshare : (s.shareNames[Utf8.encode shareName]?).isSome)
    (hzero : fileSize s.files (sharePath shareName names) = 0)
    (hfits : totalSize s.files + len.toNat < 2 ^ 64) :
    Sound { s with
      dirs := dirs'
      files := s.files.insert (sharePath shareName names) (Bytes.leU64 len) } := by
  refine ⟨h.names, ?_, fun f hf ↦ ?_, ?_⟩
  · rw [sharePath_eq hname hne] at hzero ⊢
    exact h.dirs.write (List.cons_ne_nil _ _) hzero len hget
  · simp only [getElem?_insert] at hf
    split at hf
    · next he => exact ⟨_, names, hne, he.trans (sharePath_eq hname hne), hshare⟩
    · exact h.owned f hf
  · have htotal := totalSize_insert s.files (sharePath shareName names) len
    show totalSize (s.files.insert _ _) < _
    omega

/-- If the index is consistent after a file is indexed, then its share is there, the file
counted for nothing and its size fits. -/
private theorem undisturbed_of_consistent (h : Sound s) (hname : IsName (Utf8.encode shareName))
    (hne : names ≠ [])
    (hget : ∀ k, dirs'[k]? = if k ∈ ancestors
        (joinNames (⟨Utf8.encode shareName, hname⟩ :: names).dropLast) then
      additionMerge k s.dirs[k]? (Bytes.leU64 len) else s.dirs[k]?)
    (hnext : IndexConsistent { s with
      dirs := dirs'
      files := s.files.insert (sharePath shareName names) (Bytes.leU64 len) }) :
    (s.shareNames[Utf8.encode shareName]?).isSome ∧
      fileSize s.files (sharePath shareName names) = 0 ∧
        totalSize s.files + len.toNat < 2 ^ 64 := by
  constructor
  · obtain ⟨name, rest, hcomponents, hshare⟩ := hnext.shares (sharePath shareName names) (by simp)
    rw [sharePath_eq hname hne, components_joinNames, List.map_cons, List.cons.injEq,
      Component.normal.injEq] at hcomponents
    rw [← hcomponents.1] at hshare
    exact hshare
  · -- the root has grown by the size, the sum by the size less what the file counted for
    have hroot : dirs'[([] : Bytes)]? = some (Bytes.leU64 (UInt64.ofNat
        (len.toNat + totalSize s.files))) := by
      rw [hget, if_pos (nil_mem_ancestors (List.cons_ne_nil _ _)), ← sizeBelow_root h.filesInShares]
      exact additionMerge_leU64 _ _ _ _ (h.dirs.value_or_absent [])
    obtain ⟨size, hsize, hsum⟩ := hnext.sizes [] _ hroot
    rw [← Bytes.leU64_inj.mp hsize, UInt64.toNat_ofNat'] at hsum
    have hgrow := sizeBelow_insert_add s.files (sharePath shareName names) len []
    have hbelow : IsAncestor [] (sharePath shareName names) := by
      rw [sharePath_eq hname hne, isAncestor_nil]
      exact List.cons_ne_nil _ _
    rw [if_pos hbelow, if_pos hbelow, sizeBelow_root h.filesInShares, ← hsum] at hgrow
    have hold := fileSize_lt s.files (sharePath shareName names)
    have htotal := h.total
    have hlen := len.toNat_lt
    omega

end IndexFile

namespace ShareHandler

/-- A handler that scans has a share name and reports no entry with an empty path. -/
def Valid : ShareHandler → Prop
  | scanning _ shareName _ items => IsName (Utf8.encode shareName) ∧
      ∀ names ∈ items.filterMap WalkItem.names?, names ≠ []
  | deleteShares shareName => IsName (Utf8.encode shareName)
  | _ => True

variable {s : Shares} {handler : ShareHandler}

/-- A handler that has been called is valid. -/
theorem Called.valid (h : handler.Called) : handler.Valid := by
  cases handler with
  | deleteShares shareName => exact h
  | putShares shareDir t w => trivial
  | scanning root shareName addedEntries items => exact h.elim
  | scanned answer => trivial
  | deleted answer => trivial

/-- In a sound index a turn of the scan loop leaves the index consistent exactly when it is
undisturbed, and then it leaves it sound. -/
private theorem next_scanning (hs : Sound s) {root shareName : String} {addedEntries : UInt32}
    {item : WalkItem} {rest : List WalkItem}
    (hvalid : (scanning root shareName addedEntries (item :: rest)).Valid) :
    (IndexConsistent (Shares.scanEntry root shareName s item).1 ↔
      (scanning root shareName addedEntries (item :: rest)).Undisturbed s) ∧
    ((scanning root shareName addedEntries (item :: rest)).Undisturbed s →
      Sound (Shares.scanEntry root shareName s item).1) := by
  obtain ⟨hname, hne⟩ := hvalid
  cases item with
  | failed e => exact ⟨iff_of_true hs.indexConsistent trivial, fun _ ↦ hs⟩
  | entry names metadata logged =>
    cases metadata with
    | error e => exact ⟨iff_of_true hs.indexConsistent trivial, fun _ ↦ hs⟩
    | ok metadata =>
      have hhead : names ≠ [] := hne names (by simp [WalkItem.names?])
      cases hdir : metadata.isDir with
      | true =>
        have hrun : (Shares.scanEntry root shareName s
            (.entry names (.ok metadata) logged)).1 = s := by
          simp [Shares.scanEntry, hdir]
        rw [hrun]
        refine ⟨iff_of_true hs.indexConsistent fun hfile ↦ ?_, fun _ ↦ hs⟩
        rw [hdir] at hfile
        cases hfile
      | false =>
        cases hdec : Utf8.decode (sharePath shareName names) with
        | none =>
          have hrun : (Shares.scanEntry root shareName s
              (.entry names (.ok metadata) logged)).1 = s := by
            simp [Shares.scanEntry, hdir, scanFile_notUtf8 hdec]
          rw [hrun]
          refine ⟨iff_of_true hs.indexConsistent fun _ hutf ↦ ?_, fun _ ↦ hs⟩
          rw [hdec] at hutf
          cases hutf
        | some path =>
          have hutf : (Utf8.decode (sharePath shareName names)).isSome := by rw [hdec]; rfl
          obtain ⟨dirs', hfile, hget⟩ := scanFile_insert hname root hhead metadata.len hutf s
          have hrun : (Shares.scanEntry root shareName s (.entry names (.ok metadata) logged)).1 =
              { s with
                dirs := dirs'
                files :=
                  s.files.insert (sharePath shareName names) (Bytes.leU64 metadata.len) } := by
            cases logged <;> simp [Shares.scanEntry, hdir, hfile]
          rw [hrun]
          have hsound : (scanning root shareName addedEntries
              (.entry names (.ok metadata) logged :: rest)).Undisturbed s →
                Sound { s with
                  dirs := dirs'
                  files :=
                    s.files.insert (sharePath shareName names) (Bytes.leU64 metadata.len) } := by
            intro hclean
            obtain ⟨hshare, hzero, hfits⟩ := hclean hdir hutf
            exact hs.write hname hhead hget hshare hzero hfits
          refine ⟨⟨fun hnext _ _ ↦ ?_, fun hclean ↦ (hsound hclean).indexConsistent⟩, hsound⟩
          exact undisturbed_of_consistent hs hname hhead hget hnext

/-- In a sound index a handler leaves the index consistent exactly when it is undisturbed, and
then it leaves it sound. -/
theorem next_index (hs : Sound s) (hvalid : handler.Valid) :
    (IndexConsistent (handler.next s).1 ↔ handler.Undisturbed s) ∧
      (handler.Undisturbed s → Sound (handler.next s).1) := by
  have hkeep : ∀ {s' : Shares}, Sound s' → (∀ {p : Prop}, p → (IndexConsistent s' ↔ p)) :=
    fun h _ hp ↦ iff_of_true h.indexConsistent hp
  cases handler with
  | putShares shareDir t w =>
    have hstart := (hs.scanStart shareDir).1
    have hrun : ((putShares shareDir t w).next s).1 = (s.scanStart shareDir).1 := by
      rcases h : s.scanStart shareDir with ⟨s', r⟩
      cases r <;> simp [next, h]
    rw [hrun]
    exact ⟨hkeep hstart trivial, fun _ ↦ hstart⟩
  | scanning root shareName addedEntries items =>
    cases items with
    | nil => exact ⟨hkeep hs trivial, fun _ ↦ hs⟩
    | cons item rest =>
      have hrun : ((scanning root shareName addedEntries (item :: rest)).next s).1 =
          (Shares.scanEntry root shareName s item).1 := by
        rcases h : Shares.scanEntry root shareName s item with ⟨s', r⟩
        cases r <;> simp [next, h]
      rw [hrun]
      exact next_scanning hs hvalid
  | deleteShares shareName =>
    have hremoved := hs.removeShareDir hvalid
    exact ⟨hkeep hremoved trivial, fun _ ↦ hremoved⟩
  | scanned answer => exact ⟨hkeep hs trivial, fun _ ↦ hs⟩
  | deleted answer => exact ⟨hkeep hs trivial, fun _ ↦ hs⟩

/-- Running keeps a handler valid. -/
theorem Valid.next (h : handler.Valid) (hs : Sound s) : (handler.next s).2.Valid := by
  cases handler with
  | putShares shareDir t w =>
    have hname := (hs.scanStart shareDir).2
    rcases hstart : s.scanStart shareDir with ⟨s', r⟩
    rw [hstart] at hname
    cases r with
    | error e => simp [ShareHandler.next, hstart, Valid]
    | ok shareName =>
      have hrun : ((putShares shareDir t w).next s).2 = scanning shareDir shareName 0 w.items := by
        simp [ShareHandler.next, hstart]
      rw [hrun]
      exact ⟨hname shareName rfl, w.names_ne_nil⟩
  | scanning root shareName addedEntries items =>
    cases items with
    | nil => trivial
    | cons item rest =>
      obtain ⟨hname, hne⟩ := h
      rcases hentry : Shares.scanEntry root shareName s item with ⟨s', r⟩
      cases r with
      | error e => simp [ShareHandler.next, hentry, Valid]
      | ok added =>
        have hrest : ∀ names ∈ rest.filterMap WalkItem.names?, names ≠ [] := by
          intro names hnames
          apply hne
          rw [List.filterMap_cons]
          split
          · exact hnames
          · exact List.mem_cons_of_mem _ hnames
        have hrun : ((scanning root shareName addedEntries (item :: rest)).next s).2 =
            scanning root shareName (addedEntries + added) rest := by
          simp [ShareHandler.next, hentry]
        rw [hrun]
        exact ⟨hname, hrest⟩
  | deleteShares shareName => trivial
  | scanned answer => trivial
  | deleted answer => trivial

end ShareHandler

namespace ShareHandlers

/-- What undisturbed steps keep: the index is sound, and the handlers are valid. -/
structure Sound (st : ShareHandlers) : Prop where
  index : HarddriveParty.Sound st.index
  valid : ∀ handler ∈ st.handlers, handler.Valid

variable {st : ShareHandlers} {i : Nat}

/-- A step leaves the index consistent exactly when it is undisturbed. -/
theorem Sound.step_consistent_iff (h : st.Sound) :
    IndexConsistent (st.step i).index ↔ st.Undisturbed i := by
  rw [step]
  cases hi : st.handlers[i]? with
  | none =>
    refine iff_of_true h.index.indexConsistent fun handler hget ↦ ?_
    cases hi.symm.trans hget
  | some handler =>
    have hvalid := h.valid handler (List.mem_of_getElem? hi)
    rw [(ShareHandler.next_index h.index hvalid).1]
    constructor
    · intro hclean other hget
      cases hi.symm.trans hget
      exact hclean
    · exact fun hclean ↦ hclean handler hi

theorem Sound.step (h : st.Sound) (hclean : st.Undisturbed i) : (st.step i).Sound := by
  rw [ShareHandlers.step]
  cases hi : st.handlers[i]? with
  | none => exact h
  | some handler =>
    have hvalid := h.valid handler (List.mem_of_getElem? hi)
    refine ⟨(ShareHandler.next_index h.index hvalid).2 (hclean handler hi), fun other hmem ↦ ?_⟩
    rcases List.mem_or_eq_of_mem_set hmem with hold | rfl
    · exact h.valid other hold
    · exact hvalid.next h.index

/-- Along every interleaving of handlers, called on a consistent index that scans and removals
have reached, the index is consistent in every state exactly when no handler is disturbed. -/
theorem overlap_consistent_iff {s : Shares} {v : View} (hv : Consistent s v)
    (hs : IndexConsistent s) (handlers : List ShareHandler)
    (hcalled : ∀ handler ∈ handlers, handler.Called) (schedule : List Nat) :
    EachState step (fun st ↦ IndexConsistent st.index) ⟨s, handlers⟩ schedule ↔
      EachStep step Undisturbed ⟨s, handlers⟩ schedule := by
  rw [eachState_iff, and_iff_right hs]
  apply eachStep_iff (I := Sound) (A := fun _ _ ↦ True)
  · exact ⟨.of_consistent hv hs, fun handler hmem ↦ (hcalled handler hmem).valid⟩
  · exact eachStep_of_forall fun _ _ ↦ trivial
  · exact fun st i h _ ↦ h.step_consistent_iff
  · exact fun st i h _ hconsistent ↦ h.step (h.step_consistent_iff.mp hconsistent)

/-- A request to share a directory with one file. -/
def sharesFoo : ShareHandler := .putShares "/a/foo" _ (Walk.oneFile oneTxt 3)

/-- The empty index with two requests. -/
def twoRequests (first second : ShareHandler) : ShareHandlers := ⟨Shares.empty, [first, second]⟩

private theorem indexConsistent_empty : IndexConsistent Shares.empty := by
  constructor <;> simp [Shares.empty]

/-- Requests to share two directories, which run in turn, and one to remove the first share while
the second is still being scanned, leave the index consistent. -/
theorem overlap_consistent_interleaved :
    EachState step (fun st ↦ IndexConsistent st.index)
      ⟨Shares.empty, [sharesFoo, .putShares "/b/bar" _ (Walk.oneFile oneTxt 5),
        .deleteShares "foo"]⟩ [0, 1, 0, 1, 0, 2, 1] := by
  apply (overlap_consistent_iff Consistent.empty indexConsistent_empty _ ?_ _).mpr
  · exact ⟨by decide, by decide, by decide, by decide, by decide, by decide, by decide, trivial⟩
  · intro handler hmem
    rcases List.mem_cons.mp hmem with rfl | hmem
    · trivial
    rcases List.mem_cons.mp hmem with rfl | hmem
    · trivial
    · rw [List.mem_singleton.mp hmem]
      show IsName (Utf8.encode "foo")
      decide

/-- Two requests to share one directory, which both have started before either reads its file,
finish with twice the size of the file. -/
theorem overlapping_requests_count_twice :
    (finalState step (twoRequests sharesFoo sharesFoo) [0, 1, 0, 1, 0, 1]).handlers.all
        ShareHandler.finished = true ∧
      ¬ IndexConsistent
        (finalState step (twoRequests sharesFoo sharesFoo) [0, 1, 0, 1, 0, 1]).index := by
  refine ⟨by decide, fun h ↦ ?_⟩
  have hdir : (finalState step (twoRequests sharesFoo sharesFoo)
      [0, 1, 0, 1, 0, 1]).index.dirs[Utf8.encode "foo"]? = some (Bytes.leU64 6) := by decide
  obtain ⟨size, hsize, hsum⟩ := h.sizes _ _ hdir
  rw [← Bytes.leU64_inj.mp hsize] at hsum
  exact absurd hsum (by decide)

end ShareHandlers

end HarddriveParty
