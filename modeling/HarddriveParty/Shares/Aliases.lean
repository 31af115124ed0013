import HarddriveParty.Shares.Names
import HarddriveParty.Shares.Resolve
import Std.Data.String.ToNat

/-!
# Share aliases

The name that a directory is shared under (`src/shares.rs:113`) is the one that its path has
already, or one that is not in use. The last loop tries more names than there are in use, so it
ends before its counter does. A scan therefore touches no name but that of its own path, and no
two shares ever have one name or one path.
-/

namespace HarddriveParty

open UnixPath OrderedTree Runs

/-- The content of `share_names`: a map from names to path strings, with distinct paths. -/
structure AliasMap (shareNames : Tree) : Prop where
  strings : ∀ k v : Bytes, shareNames[k]? = some v →
    ∃ name path : String, k = Utf8.encode name ∧ v = Utf8.encode path
  distinct : ∀ k k' v : Bytes, shareNames[k]? = some v → shareNames[k']? = some v → k = k'

/-- The name stands for exactly this path, or the path has no name and the name is not in use
and can be one component of a path. -/
def StableOrFresh (shareNames : Tree) (path shareName : String) : Prop :=
  shareNames[Utf8.encode shareName]? = some (Utf8.encode path) ∨
    (∀ k : Bytes, shareNames[k]? ≠ some (Utf8.encode path)) ∧
      shareNames[Utf8.encode shareName]? = none ∧ shareName ≠ "" ∧
        slash ∉ Utf8.encode shareName

/-- No two shares have one name or one path. -/
def NoTwins (shareNames : Tree) : Prop :=
  (shareNames.toList.map Prod.fst).Nodup ∧ (shareNames.toList.map Prod.snd).Nodup

namespace ShareOperation

/-- A scan leaves the names of all other paths as they are. -/
def KeepsOtherNames (s : Shares) : ShareOperation → Prop
  | .scan root t w => ∀ k v : Bytes, s.shareNames[k]? = some v → v ≠ Utf8.encode root →
      (run s (.scan root t w)).shareNames[k]? = some v
  | .remove _ => True

end ShareOperation

section Numbered

variable {taken : String → Bool} {basename : String}

/-- The counter runs out only when every name it tries is in use. -/
theorem taken_of_numberedName_none {fuel i : Nat}
    (h : numberedName taken basename fuel i = none) :
    ∀ j, i ≤ j → j < i + fuel → taken (basename ++ " - " ++ toString j) = true := by
  induction fuel generalizing i with
  | zero => omega
  | succ fuel ih =>
    rw [numberedName] at h
    split at h
    · next htaken =>
      intro j hij hj
      by_cases he : j = i
      · subst j
        exact htaken
      · exact ih h j (by omega) (by omega)
    · cases h

private theorem numbered_inj {i j : Nat}
    (h : basename ++ " - " ++ toString i = basename ++ " - " ++ toString j) : i = j := by
  have hb := congrArg Utf8.encode h
  rw [Utf8.encode_append, Utf8.encode_append, Utf8.encode_append, Utf8.encode_append,
    List.append_cancel_left_eq, Utf8.encode_inj] at hb
  exact Nat.repr_injective hb

private theorem numbered_ne (i : Nat) : basename ≠ basename ++ " - " ++ toString i := by
  intro h
  have hl := congrArg (fun s ↦ (Utf8.encode s).length) h
  simp only [Utf8.encode_append, List.length_append] at hl
  have hd : (Utf8.encode " - ").length = 3 := by decide
  omega

/-- A map with fewer entries than the counter tries names, apart from the base name, leaves one
of them free. -/
theorem numberedName_isSome {shareNames : Tree} (fuel : Nat)
    (hbase : shareNames[Utf8.encode basename]?.isSome)
    (hsize : shareNames.size < fuel + 1) :
    (numberedName (fun candidate ↦ shareNames[Utf8.encode candidate]?.isSome) basename fuel
      2).isSome := by
  cases hnone : numberedName (fun candidate ↦ shareNames[Utf8.encode candidate]?.isSome)
      basename fuel 2 with
  | some candidate => rfl
  | none =>
    exfalso
    have htaken := taken_of_numberedName_none hnone
    -- the base name and all tried names are different keys
    let tried := basename :: (List.range' 2 fuel).map fun i ↦ basename ++ " - " ++ toString i
    have hnodup : (tried.map Utf8.encode).Nodup := by
      refine List.Nodup.map (fun a b ↦ Utf8.encode_inj.mp) (List.nodup_cons.mpr ⟨?_, ?_⟩)
      · intro hmem
        obtain ⟨i, -, hi⟩ := List.mem_map.mp hmem
        exact numbered_ne i hi.symm
      · exact List.Nodup.map (fun i j ↦ numbered_inj) List.nodup_range'
    have hsub : tried.map Utf8.encode ⊆ shareNames.toList.map Prod.fst := by
      intro k hk
      obtain ⟨candidate, hc, rfl⟩ := List.mem_map.mp hk
      have hsome : shareNames[Utf8.encode candidate]?.isSome := by
        rcases List.mem_cons.mp hc with rfl | hc
        · exact hbase
        · obtain ⟨i, hi, rfl⟩ := List.mem_map.mp hc
          have hrange := List.mem_range'_1.mp hi
          exact htaken i hrange.1 hrange.2
      obtain ⟨v, hv⟩ := Option.isSome_iff_exists.mp hsome
      exact List.mem_map.mpr
        ⟨(_, v), Std.ExtTreeMap.mem_toList_iff_getElem?_eq_some.mpr hv, rfl⟩
    have hlen := List.Nodup.length_le_of_subset hnodup hsub
    rw [List.length_map, List.length_map, Std.ExtTreeMap.length_toList, List.length_cons,
      List.length_map, List.length_range'] at hlen
    omega

end Numbered

section Choice

variable {shareNames : Tree} {path shareName : String}

/-- The normal components of a string are strings. -/
theorem decode_of_mem_components {n : Bytes} (h : .normal n ∈ components (Utf8.encode path)) :
    (Utf8.decode n).isSome := by
  have hself : (Utf8.decode (Utf8.encode path)).isSome := by
    rw [Utf8.decode_encode]
    rfl
  exact Utf8.decode_of_mem_splitOn (by decide) hself (normal_mem_components h).1

private theorem normalComponents_isSome {cs : List Component}
    (h : ∀ n, .normal n ∈ cs → (Utf8.decode n).isSome) : (normalComponents cs).isSome := by
  fun_induction normalComponents cs with
  | case1 => rfl
  | case2 name rest ih =>
    obtain ⟨s, hs⟩ := Option.isSome_iff_exists.mp (h name List.mem_cons_self)
    obtain ⟨tail, htail⟩ := Option.isSome_iff_exists.mp
      (ih fun n hn ↦ h n (List.mem_cons_of_mem _ hn))
    rw [hs, Option.bind_some, htail]
    rfl
  | case3 c rest hc ih => exact ih fun n hn ↦ h n (List.mem_cons_of_mem _ hn)

/-- A name is chosen for every path that ends in a normal component, unless there are as many
names as the counter has values. -/
theorem shareNameForPath_isOk (h : AliasMap shareNames) (hsize : shareNames.size < 2 ^ 31 - 1)
    {cs : List Component} {n : Bytes}
    (hlast : components (Utf8.encode path) = cs ++ [.normal n]) :
    ∃ shareName, Shares.shareNameForPath shareNames path = .ok shareName := by
  have hnormal : ∀ m, .normal m ∈ components (Utf8.encode path) → (Utf8.decode m).isSome :=
    fun m ↦ decode_of_mem_components
  obtain ⟨basename, hbase⟩ := Option.isSome_iff_exists.mp (hnormal n (by rw [hlast]; simp))
  obtain ⟨names, hnames⟩ := Option.isSome_iff_exists.mp (normalComponents_isSome hnormal)
  have hfile : fileName (Utf8.encode path) = some n := by simp [fileName, hlast]
  unfold Shares.shareNameForPath
  cases hfind : shareNames.toList.find? fun kv ↦ kv.2 == Utf8.encode path with
  | some kv =>
    -- a stored name is a string
    have hmem := List.mem_of_find?_eq_some hfind
    rw [Std.ExtTreeMap.mem_toList_iff_getElem?_eq_some] at hmem
    obtain ⟨name, -, hname, -⟩ := h.strings _ _ hmem
    refine ⟨name, ?_⟩
    simp only [hname, Utf8.decode_encode]
    rfl
  | none =>
    simp only [hfile, hbase, hnames]
    split
    · next htaken =>
      split
      · exact ⟨_, rfl⟩
      · obtain ⟨candidate, hc⟩ := Option.isSome_iff_exists.mp
          (numberedName_isSome (2 ^ 31 - 2) htaken (by omega))
        exact ⟨candidate, by rw [hc]; rfl⟩
    · exact ⟨_, rfl⟩

/-- The chosen name is stable or fresh. -/
theorem stableOrFresh (hname : Shares.shareNameForPath shareNames path = .ok shareName) :
    StableOrFresh shareNames path shareName := by
  by_cases hstored : ∃ k : Bytes, shareNames[k]? = some (Utf8.encode path)
  · obtain ⟨k, hk⟩ := hstored
    exact Or.inl (shareNames_of_stored hk hname)
  · have hnew : ∀ k : Bytes, shareNames[k]? ≠ some (Utf8.encode path) :=
      fun k hk ↦ hstored ⟨k, hk⟩
    rcases shareNames_of_shareNameForPath hname with hpath | hfree
    · exact absurd hpath (hnew _)
    · obtain ⟨hne, hslash, -⟩ := isName_of_new hnew hname
      exact Or.inr ⟨hnew, hfree, fun h ↦ hne (by rw [h]; rfl), hslash⟩

end Choice

section Operations

variable {s : Shares} {shareName root : String}

/-- Indexing a file touches no name. -/
theorem shareNames_scanFile (s : Shares) (names : List Name) (len : UInt64) :
    (Shares.scanFile root shareName s names len).1.shareNames = s.shareNames := by
  unfold Shares.scanFile
  split
  · rfl
  · simp only
    split
    · rfl
    · split
      · rfl
      · split
        · rfl
        · rfl

/-- Neither does one turn of the scan loop. -/
theorem shareNames_scanEntry (s : Shares) (item : WalkItem) :
    (Shares.scanEntry root shareName s item).1.shareNames = s.shareNames := by
  cases item with
  | failed e => rfl
  | entry names metadata logged =>
    cases metadata with
    | error e => rfl
    | ok metadata =>
      have hfile := @shareNames_scanFile shareName root s names metadata.len
      cases hdir : metadata.isDir with
      | true => simp only [Shares.scanEntry, hdir, if_true]
      | false =>
        simp only [Shares.scanEntry, hdir, Bool.false_eq_true, if_false]
        rcases hrun : Shares.scanFile root shareName s names metadata.len with ⟨s', r⟩
        rw [hrun] at hfile
        cases r with
        | error e => exact hfile
        | ok u =>
          cases logged with
          | error e => exact hfile
          | ok v => exact hfile

/-- The scan loop touches no name. -/
theorem shareNames_scanLoop (s : Shares) (added : UInt32) (items : List WalkItem) :
    (Shares.scanLoop root shareName s added items).1.shareNames = s.shareNames := by
  induction items generalizing s added with
  | nil => rfl
  | cons item rest ih =>
    have hentry := @shareNames_scanEntry shareName root s item
    rw [Shares.scanLoop]
    rcases hrun : Shares.scanEntry root shareName s item with ⟨s', r⟩
    rw [hrun] at hentry
    cases r with
    | error e => exact hentry
    | ok n => exact (ih s' _).trans hentry

/-- A removal takes at most its own name out. -/
theorem shareNames_removeShareDir (s : Shares) (shareName : String) :
    (s.removeShareDir shareName).1.shareNames = s.shareNames ∨
      (s.removeShareDir shareName).1.shareNames = s.shareNames.erase (Utf8.encode shareName) := by
  unfold Shares.removeShareDir
  split
  · exact Or.inr rfl
  · exact Or.inl rfl

/-- A scan without a name changes nothing. With one it sets the path of that name. -/
theorem getElem?_shareNames_scan (s : Shares) (root : String) (items : List WalkItem) :
    (s.scan root items).1.shareNames = s.shareNames ∨
      ∃ shareName, Shares.shareNameForPath s.shareNames root = .ok shareName ∧
        ∀ k : Bytes, (s.scan root items).1.shareNames[k]? =
          if k = Utf8.encode shareName then some (Utf8.encode root) else s.shareNames[k]? := by
  cases hname : Shares.shareNameForPath s.shareNames root with
  | error e =>
    left
    simp only [Shares.scan, Shares.scanStart, hname]
  | ok shareName =>
    right
    refine ⟨shareName, rfl, fun k ↦ ?_⟩
    have hstart : (s.scanStart root).2 = .ok shareName ∧
        (s.scanStart root).1.shareNames =
          (s.removeShareDir shareName).1.shareNames.insert (Utf8.encode shareName)
            (Utf8.encode root) := by
      cases hget : s.getDirSize shareName with
      | none => simp only [Shares.scanStart, hname, removeShareDir_of_none hget, true_and]
      | some existingSize =>
        simp only [Shares.scanStart, hname, removeShareDir_of_getDirSize hget, true_and]
    have hscan : (s.scan root items).1.shareNames = (s.scanStart root).1.shareNames := by
      rw [Shares.scan]
      rcases hrun : s.scanStart root with ⟨s', r⟩
      rw [hrun] at hstart
      obtain ⟨rfl, -⟩ := hstart
      have hloop := @shareNames_scanLoop shareName root s' 0 items
      rcases hend : Shares.scanLoop root shareName s' 0 items with ⟨s'', r⟩
      rw [hend] at hloop
      simp only [hend]
      cases r with
      | error e => exact hloop
      | ok added => exact hloop
    rw [hscan, hstart.2, getElem?_insert]
    by_cases hk : k = Utf8.encode shareName
    · rw [if_pos hk, if_pos hk]
    · rw [if_neg hk, if_neg hk]
      rcases shareNames_removeShareDir s shareName with h | h
      · rw [h]
      · rw [h, getElem?_erase, if_neg hk]

/-- A scan leaves the names of other paths as they are. -/
theorem keepsOtherNames (s : Shares) (op : ShareOperation) : op.KeepsOtherNames s := by
  cases op with
  | remove shareName => trivial
  | scan root t w =>
    intro k v hk hv
    rcases getElem?_shareNames_scan s root w.items with hsame | ⟨shareName, hname, hset⟩
    · exact (congrArg (·[k]?) hsame).trans hk
    · refine (hset k).trans ?_
      split
      · next hkey =>
        -- the chosen name stands for the scanned path or for none
        subst hkey
        rcases shareNames_of_shareNameForPath hname with hroot | hnone
        · rw [hroot] at hk
          exact absurd (Option.some.inj hk).symm hv
        · rw [hnone] at hk
          cases hk
      · exact hk

/-- Scans and removals keep the map one of names to distinct paths. -/
theorem AliasMap.run (h : AliasMap s.shareNames) (op : ShareOperation) :
    AliasMap (op.run s).shareNames := by
  cases op with
  | remove shareName =>
    have hsub : ∀ k v : Bytes, (s.removeShareDir shareName).1.shareNames[k]? = some v →
        s.shareNames[k]? = some v := by
      intro k v hk
      rcases shareNames_removeShareDir s shareName with hr | hr
      · rwa [hr] at hk
      · rw [hr, getElem?_erase] at hk
        split at hk
        · cases hk
        · exact hk
    exact ⟨fun k v hk ↦ h.strings k v (hsub k v hk),
      fun k k' v hk hk' ↦ h.distinct k k' v (hsub k v hk) (hsub k' v hk')⟩
  | scan root t w =>
    rcases getElem?_shareNames_scan s root w.items with hsame | ⟨shareName, hname, hset⟩
    · rw [ShareOperation.run, hsame]
      exact h
    · rw [ShareOperation.run]
      have hold : ∀ k v : Bytes, (s.scan root w.items).1.shareNames[k]? = some v →
          (k = Utf8.encode shareName ∧ v = Utf8.encode root) ∨
            k ≠ Utf8.encode shareName ∧ s.shareNames[k]? = some v := by
        intro k v hk
        rw [hset] at hk
        split at hk
        · next hkey => exact Or.inl ⟨hkey, (Option.some.inj hk).symm⟩
        · next hkey => exact Or.inr ⟨hkey, hk⟩
      -- no other name stands for the scanned path
      have hother : ∀ k : Bytes, k ≠ Utf8.encode shareName →
          s.shareNames[k]? ≠ some (Utf8.encode root) := by
        intro k hne hk
        exact hne (h.distinct _ _ _ hk (shareNames_of_stored hk hname))
      constructor
      · intro k v hk
        rcases hold k v hk with ⟨rfl, rfl⟩ | ⟨-, hk⟩
        · exact ⟨shareName, root, rfl, rfl⟩
        · exact h.strings k v hk
      · intro k k' v hk hk'
        rcases hold k v hk with ⟨rfl, rfl⟩ | ⟨hne, hk⟩
        · rcases hold k' _ hk' with ⟨rfl, -⟩ | ⟨hne', hk'⟩
          · rfl
          · exact absurd hk' (hother k' hne')
        · rcases hold k' v hk' with ⟨rfl, rfl⟩ | ⟨-, hk'⟩
          · exact absurd hk (hother k hne)
          · exact h.distinct k k' v hk hk'

/-- In such a map no two shares have one name or one path. -/
theorem AliasMap.noTwins {shareNames : Tree} (h : AliasMap shareNames) : NoTwins shareNames := by
  refine ⟨nodup_keys shareNames, ?_⟩
  refine List.Nodup.map_on (fun kv hkv kv' hkv' hv ↦ ?_) (nodup_toList shareNames)
  rw [Std.ExtTreeMap.mem_toList_iff_getElem?_eq_some] at hkv hkv'
  rw [hv] at hkv
  exact Prod.ext (h.distinct _ _ _ hkv hkv') hv

end Operations

/-- For every map from names to distinct paths, with fewer names than the counter has values,
and every path that ends in a normal component: a name is chosen, and it is stable or fresh.
From such a map on, whatever is scanned and removed, no two shares have one name or one path,
and a scan leaves the names of all other paths as they are. -/
theorem aliases_stable_fresh :
    (∀ (shareNames : Tree) (path : String) (cs : List Component) (n : Bytes),
      AliasMap shareNames → shareNames.size < 2 ^ 31 - 1 →
      components (Utf8.encode path) = cs ++ [.normal n] →
        ∃ shareName, Shares.shareNameForPath shareNames path = .ok shareName ∧
          StableOrFresh shareNames path shareName) ∧
    (∀ (s : Shares) (ops : List ShareOperation), AliasMap s.shareNames →
      EachState ShareOperation.run (fun s ↦ NoTwins s.shareNames) s ops ∧
        EachStep ShareOperation.run (fun s op ↦ op.KeepsOtherNames s) s ops) := by
  constructor
  · intro shareNames path cs n h hsize hlast
    obtain ⟨shareName, hname⟩ := shareNameForPath_isOk h hsize hlast
    exact ⟨shareName, hname, stableOrFresh hname⟩
  · intro s ops h
    have hfree : EachStep ShareOperation.run (fun _ _ ↦ True) s ops :=
      eachStep_of_forall fun _ _ ↦ trivial
    constructor
    · exact (eachState_of_invariant (I := fun s ↦ AliasMap s.shareNames) h hfree
        fun s op h _ ↦ h.run op).mono fun s h ↦ h.noTwins
    · exact eachStep_of_invariant (I := fun _ ↦ True) trivial hfree (fun _ _ _ _ ↦ trivial)
        fun s op _ _ ↦ keepsOtherNames s op

/-- An empty database has no names. -/
theorem aliasMap_empty : AliasMap Shares.empty.shareNames where
  strings := by
    intro k v h
    simp [Shares.empty] at h
  distinct := by
    intro k k' v h
    simp [Shares.empty] at h

/-- The two scans of the test at `src/shares.rs:567`, and behind them the path of a third share of
the same name. -/
theorem aliases_stable_fresh_music :
    (∃ shareName, Shares.shareNameForPath
        (finalState ShareOperation.run Shares.empty twoMusicShares).shareNames "/third/Music" =
          .ok shareName ∧
        StableOrFresh (finalState ShareOperation.run Shares.empty twoMusicShares).shareNames
          "/third/Music" shareName) ∧
      EachState ShareOperation.run (fun s ↦ NoTwins s.shareNames) Shares.empty twoMusicShares := by
  constructor
  · have hmap : AliasMap (finalState ShareOperation.run Shares.empty twoMusicShares).shareNames :=
      (aliasMap_empty.run (.scan "/first/Music" _ (Walk.oneFile oneTxt 3))).run
        (.scan "/second/Music" _ (Walk.oneFile twoTxt 3))
    exact aliases_stable_fresh.1 _ "/third/Music" [.rootDir, .normal (Utf8.encode "third")]
      (Utf8.encode "Music") hmap (by decide) (by decide)
  · exact (aliases_stable_fresh.2 Shares.empty twoMusicShares aliasMap_empty).1

end HarddriveParty
