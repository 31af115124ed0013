import HarddriveParty.Shares.Consistency

/-!
# Runs of scans and removals

`Reachable` collects the indexes that scans and removals of shares lead to, together with
what each scan visited. Every reachable index is consistent, so its files are exactly the
visited ones, its directory sizes are the sums of the file sizes, and an operation on one
share keeps the entries of the others.
-/

namespace HarddriveParty

open UnixPath OrderedTree

namespace View

/-- What was visited after a scan: it replaces the files of the share it chose. -/
def scanned (v : View) (s : Shares) (root : String) (items : List WalkItem) : View :=
  match Shares.shareNameForPath s.shareNames root with
  | .ok shareName => v.set shareName (some (visitedFiles shareName items))
  | .error _ => v

/-- What was visited after a removal: a share that was found is forgotten. -/
def removed (v : View) (shareName : String) : Except ScanDirError Unit → View
  | .ok () => v.set shareName none
  | .error _ => v

end View

/-- The indexes that are reached from an empty database by scans of directories and by
removals of shares that are present, with the files that the last scans visited. -/
inductive Reachable : Shares → View → Prop where
  | empty : Reachable Shares.empty fun _ ↦ none
  | scan {s : Shares} {v : View} (h : Reachable s v) (root : String) {t : DirTree} (w : Walk t) :
      Reachable (s.scan root w.items).1 (v.scanned s root w.items)
  | remove {s : Shares} {v : View} (h : Reachable s v) (shareName : String)
      (hname : s.shareNames[Utf8.encode shareName]?.isSome) :
      Reachable (s.removeShareDir shareName).1
        (v.removed shareName (s.removeShareDir shareName).2)

namespace Consistent

variable {s : Shares} {v : View}

/-- The scan loop indexes the files it visits. -/
theorem scanLoop {shareName : String} {l : List (List Name × UInt64)}
    (h : Consistent s (v.set shareName (some l))) (root : String) (added : UInt32)
    (items : List WalkItem) (hne : ∀ names ∈ items.filterMap WalkItem.names?, names ≠ [])
    (hnodup : (l.map Prod.fst ++ items.filterMap WalkItem.names?).Nodup) :
    Consistent (Shares.scanLoop root shareName s added items).1
      (v.set shareName (some (l ++ visitedFiles shareName items))) := by
  have hname : IsName (Utf8.encode shareName) := h.valid shareName (by simp)
  refine scanLoop_rule hname (R := fun s l ↦ Consistent s (v.set shareName (some l)))
    (fun s l names len h hne hnew hutf ↦ ?_) h added items hne hnodup
  rcases h.scanFile root hne hnew len with ⟨hnone, -⟩ | ⟨-, -, hcons⟩
  · rw [Option.isNone_iff_eq_none] at hnone
    rw [hnone] at hutf
    cases hutf
  · exact hcons

/-- The names in use are names. -/
theorem isName_key (h : Consistent s v) {k : Bytes} (hk : s.shareNames[k]?.isSome) :
    IsName k := by
  obtain ⟨name, rfl, hv⟩ := (h.names k).mp hk
  exact h.valid name hv

/-- The part of a scan before the walk leaves its share without files. -/
theorem scanStart (h : Consistent s v) {root shareName : String}
    (hname : Shares.shareNameForPath s.shareNames root = .ok shareName) :
    (s.scanStart root).2 = .ok shareName ∧
      Consistent (s.scanStart root).1 (v.set shareName (some [])) := by
  have hvalid := isName_shareNameForPath (fun k hk ↦ h.isName_key hk) hname
  rcases h.removeShareDir hvalid with ⟨hrun, hno⟩ | ⟨hok, hcons⟩
  · rw [Shares.scanStart, hname]
    simp only [hrun]
    exact ⟨trivial, h.insertShare hvalid hno _⟩
  · rcases hrun : s.removeShareDir shareName with ⟨s', r⟩
    rw [hrun] at hok hcons
    subst hok
    rw [Shares.scanStart, hname]
    simp only [hrun]
    have hins := hcons.insertShare hvalid (fun rel size ↦ by simp [View.Visited])
      (Utf8.encode root)
    rw [View.set_set] at hins
    exact ⟨trivial, hins⟩

/-- A scan replaces the files of its share by those it visits. -/
theorem scan (h : Consistent s v) (root : String) {t : DirTree} (w : Walk t) :
    Consistent (s.scan root w.items).1 (v.scanned s root w.items) := by
  rw [View.scanned]
  cases hname : Shares.shareNameForPath s.shareNames root with
  | error e =>
    simp only [Shares.scan, Shares.scanStart, hname]
    exact h
  | ok shareName =>
    obtain ⟨hok, hstart⟩ := h.scanStart hname
    have hloop := hstart.scanLoop root 0 w.items w.names_ne_nil (by simpa using w.once)
    rw [List.nil_append] at hloop
    rcases hrun : s.scanStart root with ⟨s', r⟩
    rw [hrun] at hok hloop
    subst hok
    rcases hend : Shares.scanLoop root shareName s' 0 w.items with ⟨s'', r⟩
    rw [hend] at hloop
    cases r with
    | error e => simpa [Shares.scan, hrun, hend] using hloop
    | ok n => simpa [Shares.scan, hrun, hend] using hloop

/-- A removal forgets the files of its share. -/
theorem remove (h : Consistent s v) {shareName : String}
    (hname : s.shareNames[Utf8.encode shareName]?.isSome) :
    Consistent (s.removeShareDir shareName).1
      (v.removed shareName (s.removeShareDir shareName).2) := by
  rcases h.removeShareDir (h.isName_key hname) with ⟨hrun, -⟩ | ⟨hok, hcons⟩
  · rw [hrun]
    exact h
  · rw [hok]
    exact hcons

end Consistent

/-- Every reachable index is consistent with what was visited. -/
theorem Reachable.consistent {s : Shares} {v : View} (h : Reachable s v) : Consistent s v := by
  induction h with
  | empty => exact Consistent.empty
  | scan _ root w ih => exact ih.scan root w
  | remove _ shareName hname ih => exact ih.remove hname

section Leaves

/-- What lies above an entry of a tree is a directory of the tree. -/
theorem DirTree.above_isDir (t : DirTree) {names : List Name} {m : Metadata}
    (h : (names, m) ∈ t.entries) {ms : List Name} (hms : ms ≠ []) (hp : ms <+: names)
    (hne : ms ≠ names) : ∃ d, (ms, d) ∈ t.entries ∧ d.isDir = true := by
  induction names using List.reverseRecOn generalizing m with
  | nil => exact absurd (List.prefix_nil.mp hp) hms
  | append_singleton names n ih =>
    have hp' : ms <+: names := by
      rcases List.prefix_concat_iff.mp hp with he | hp'
      · exact absurd he hne
      · exact hp'
    have hnames : names ≠ [] := by
      rintro rfl
      exact hms (List.prefix_nil.mp hp')
    obtain ⟨⟨parent, d⟩, hd, hparent, hdir⟩ := t.closed _ h (by simpa using hnames)
    rw [List.dropLast_concat] at hparent
    change parent = names at hparent
    rw [hparent] at hd
    by_cases he : ms = names
    · subst he
      exact ⟨d, hd, hdir⟩
    · exact ih hd hp' he

/-- A file of a tree has nothing below it. -/
theorem DirTree.leaf (t : DirTree) {names ms : List Name} {m m' : Metadata}
    (h : (ms, m) ∈ t.entries) (hfile : m.isDir = false) (h' : (names, m') ∈ t.entries)
    (hp : ms <+: names) : ms = names := by
  by_contra hne
  obtain ⟨d, hd, hdir⟩ := t.above_isDir h' (t.ne_nil _ h) hp hne
  have he := List.inj_on_of_nodup_map t.nodup h hd rfl
  rw [(Prod.mk.inj he).2, hdir] at hfile
  cases hfile

private theorem visitedFiles_from {t : DirTree} (shareName : String) {items : List WalkItem}
    (h : ∀ item ∈ items, item.From t) :
    ∀ f ∈ visitedFiles shareName items, (f.1, ⟨false, f.2⟩) ∈ t.entries := by
  induction items with
  | nil => simp [visitedFiles]
  | cons item rest ih =>
    have hrest := ih fun i hi ↦ h i (List.mem_cons_of_mem _ hi)
    have hitem := h item List.mem_cons_self
    cases item with
    | failed e => simp [visitedFiles]
    | entry names metadata logged =>
      cases metadata with
      | error e => simp [visitedFiles]
      | ok metadata =>
        intro f hf
        simp only [visitedFiles] at hf
        cases hdir : metadata.isDir with
        | true =>
          rw [if_pos hdir] at hf
          exact hrest f hf
        | false =>
          rw [if_neg (by simp [hdir])] at hf
          split at hf
          · cases hf
          · rcases List.mem_cons.mp hf with rfl | hf
            · obtain ⟨isDir, len⟩ := metadata
              cases hdir
              exact hitem
            · cases logged with
              | error e => cases hf
              | ok u => exact hrest f hf

/-- What the last scan of a share visited were files of one tree. -/
theorem Reachable.visited_from_tree {s : Shares} {v : View} (h : Reachable s v)
    {shareName : String} {l : List (List Name × UInt64)} (hl : v shareName = some l) :
    ∃ t : DirTree, ∀ f ∈ l, (f.1, ⟨false, f.2⟩) ∈ t.entries := by
  induction h generalizing l with
  | empty => cases hl
  | @scan s v _ root t w ih =>
    cases hname : Shares.shareNameForPath s.shareNames root with
    | error e =>
      rw [View.scanned, hname] at hl
      exact ih hl
    | ok name =>
      rw [View.scanned, hname] at hl
      by_cases hn : shareName = name
      · subst hn
        simp only [View.set_self] at hl
        cases hl
        exact ⟨t, visitedFiles_from _ w.fromTree⟩
      · simp only [View.set_of_ne v hn] at hl
        exact ih hl
  | @remove s v _ name _ ih =>
    cases hr : (s.removeShareDir name).2 with
    | error e =>
      rw [hr] at hl
      exact ih hl
    | ok u =>
      rw [hr, View.removed] at hl
      by_cases hn : shareName = name
      · subst hn
        rw [View.set_self] at hl
        cases hl
      · rw [View.set_of_ne v hn] at hl
        exact ih hl

/-- No path of a reachable index is both a directory and a file. -/
theorem Reachable.not_dir_and_file {s : Shares} {v : View} (h : Reachable s v) {k : Bytes}
    (hd : s.dirs[k]?.isSome) (hf : s.files[k]?.isSome) : False := by
  have hc := h.consistent
  obtain ⟨b, hb⟩ := Option.isSome_iff_exists.mp hf
  obtain ⟨name, rel, size, hv, rfl, -⟩ := (hc.files k b).mp hb
  have hname := hc.isName_of_visited hv
  obtain ⟨hrel, -⟩ := hc.paths _ _ _ hv
  rw [sharePath_eq hname hrel] at hd
  obtain ⟨f, hf', ha⟩ := hc.dirs.needed _ (List.cons_ne_nil _ _) hd
  obtain ⟨b', hb'⟩ := Option.isSome_iff_exists.mp hf'
  obtain ⟨name', rel', size', hv', rfl, -⟩ := (hc.files f b').mp hb'
  have hname' := hc.isName_of_visited hv'
  obtain ⟨hrel', -⟩ := hc.paths _ _ _ hv'
  rw [sharePath_eq hname' hrel', isAncestor_joinNames, List.cons_prefix_cons,
    Subtype.mk.injEq, Utf8.encode_inj] at ha
  obtain ⟨⟨rfl, hp⟩, hne⟩ := ha
  obtain ⟨l, hl, hmem⟩ := hv
  obtain ⟨l', hl', hmem'⟩ := hv'
  rw [hl] at hl'
  cases hl'
  obtain ⟨t, ht⟩ := h.visited_from_tree hl
  have he : rel = rel' := t.leaf (ht _ hmem) rfl (ht _ hmem') hp
  exact hne (by rw [he])

end Leaves

section Frame

variable {s s' : Shares} {v v' : View}

/-- The size below a directory depends on the files below it only. -/
theorem sizeBelow_congr {files files' : Tree} {d : Bytes}
    (h : ∀ f, IsAncestor d f → files'[f]? = files[f]?) :
    sizeBelow files' d = sizeBelow files d := by
  have hfilter : (files'.filter fun f _ ↦ decide (IsAncestor d f)) =
      files.filter fun f _ ↦ decide (IsAncestor d f) := by
    apply Std.ExtTreeMap.ext_getElem?
    intro f
    rw [Std.ExtTreeMap.getElem?_filter', Std.ExtTreeMap.getElem?_filter']
    by_cases ha : IsAncestor d f
    · rw [h f ha]
    · simp [ha]
  have hweight : ∀ t : Tree, sizeBelow t d =
      weight (t.filter fun f _ ↦ decide (IsAncestor d f)) fun _ value ↦ recordedSize value := by
    intro t
    rw [weight_filter]
    simp [sizeBelow]
  rw [hweight, hweight, hfilter]

/-- What the directory tree says about a directory depends on the files below it only. -/
theorem DirsMatch.congr {files files' dirs dirs' : Tree} (h : DirsMatch files dirs)
    (h' : DirsMatch files' dirs') {ms : List Name} (hms : ms ≠ [])
    (hf : ∀ f, IsAncestor (joinNames ms) f → files'[f]? = files[f]?) :
    dirs'[joinNames ms]? = dirs[joinNames ms]? := by
  have hbelow : HasBelow files' (joinNames ms) ↔ HasBelow files (joinNames ms) := by
    refine exists_congr fun f ↦ and_congr_left fun ha ↦ ?_
    rw [hf f ha]
  have hsize := sizeBelow_congr hf
  cases hd' : dirs'[joinNames ms]? with
  | some b' =>
    have hb := hbelow.mp (h'.needed ms hms (by rw [hd']; rfl))
    obtain ⟨b, hd⟩ := Option.isSome_iff_exists.mp (h.present ms hb)
    rw [hd, h.size _ b hd, h'.size _ b' hd', hsize]
  | none =>
    cases hd : dirs[joinNames ms]? with
    | none => rfl
    | some b =>
      have hb := hbelow.mpr (h.needed ms hms (by rw [hd]; rfl))
      have hs := h'.present ms hb
      rw [hd'] at hs
      cases hs

/-- The entries below a share depend on what was visited of that share only. -/
theorem Consistent.entries_of_share (h : Consistent s v) (h' : Consistent s' v')
    {shareName : String} (hname : IsName (Utf8.encode shareName))
    (hv : v' shareName = v shareName) {k : Bytes} (hk : StartsWith k (Utf8.encode shareName)) :
    s'.files[k]? = s.files[k]? ∧ s'.dirs[k]? = s.dirs[k]? := by
  have hstart : ∀ ns : List Name, StartsWith (joinNames ns) (Utf8.encode shareName) ↔
      [(⟨Utf8.encode shareName, hname⟩ : Name)] <+: ns := fun _ ↦ startsWith_share hname
  have hvis : ∀ rel size, v'.Visited shareName rel size ↔ v.Visited shareName rel size := by
    intro rel size
    rw [View.Visited, View.Visited, hv]
  have hown : ∀ {s : Shares} {v : View}, Consistent s v → ∀ f b,
      StartsWith f (Utf8.encode shareName) → (s.files[f]? = some b ↔ ∃ rel size,
        v.Visited shareName rel size ∧ f = sharePath shareName rel ∧ b = Bytes.leU64 size) := by
    intro s v h f b hf
    rw [h.files]
    constructor
    · rintro ⟨name, rel, size, hvis, rfl, rfl⟩
      rw [sharePath_eq (h.isName_of_visited hvis) (h.paths _ _ _ hvis).1, hstart,
        List.cons_prefix_cons, Subtype.mk.injEq, Utf8.encode_inj] at hf
      rw [← hf.1] at hvis ⊢
      exact ⟨rel, size, hvis, rfl, rfl⟩
    · rintro ⟨rel, size, hvis, rfl, rfl⟩
      exact ⟨shareName, rel, size, hvis, rfl, rfl⟩
  have hfiles : ∀ f, StartsWith f (Utf8.encode shareName) → s'.files[f]? = s.files[f]? := by
    intro f hf
    apply Option.ext
    intro b
    rw [hown h' f b hf, hown h f b hf]
    simp only [hvis]
  refine ⟨hfiles k hk, ?_⟩
  by_cases hplain : ∃ ms : List Name, k = joinNames ms
  · obtain ⟨ms, rfl⟩ := hplain
    have hms := (hstart ms).mp hk
    refine h.dirs.congr h'.dirs ?_ fun f hf ↦ hfiles f (hk.trans hf.1)
    rintro rfl
    simp at hms
  · have hnone : ∀ {s : Shares} {v : View}, Consistent s v → s.dirs[k]? = none := by
      intro s v h
      cases hd : s.dirs[k]? with
      | none => rfl
      | some b => exact absurd (h.dirs.keys k (by rw [hd]; rfl)) hplain
    rw [hnone h, hnone h']

end Frame

end HarddriveParty
