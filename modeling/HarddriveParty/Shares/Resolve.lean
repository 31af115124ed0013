import HarddriveParty.Shares.Query
import HarddriveParty.Shares.Removal

/-!
# Resolving a requested path

Model of `Shares::resolve_path` in `src/shares.rs`, which finds the file on disk for an index
path that a peer asks for. `Origins` remembers for each index path which scan indexed it last;
after any run of scans and removals the index resolves its own paths, each to the file that
the scan found.
-/

namespace HarddriveParty

open UnixPath OrderedTree Runs

/-- The errors of resolving a path that do not come from the database (`src/shares.rs:424`). -/
inductive ResolvePathError where
  | missingFirstComponent
  | badShareName
  | utf8Error
  | fileNotFound
  deriving DecidableEq, Repr

/-- Resolve a path from a request by looking up the absolute path associated with its share
name component (`src/shares.rs:206`). -/
def Shares.resolvePath (s : Shares) (inputPath : String) :
    Except ResolvePathError (Bytes × UInt64) :=
  match s.files[Utf8.encode inputPath]? with
  | none => .error .fileNotFound
  | some sizeBuf =>
    match Bytes.readLeU64 sizeBuf with
    | none => .error .badShareName
    | some size =>
      match components (Utf8.encode inputPath) with
      | [] => .error .missingFirstComponent
      | shareName :: inputPathIter =>
        let subPath := collect inputPathIter
        match Utf8.decode shareName.asBytes with
        | none => .error .missingFirstComponent
        | some shareName =>
          match s.shareNames[Utf8.encode shareName]? with
          | none => .error .badShareName
          | some actualPathBytes =>
            match Utf8.decode actualPathBytes with
            | none => .error .utf8Error
            | some actualPath => .ok (join (Utf8.encode actualPath) subPath, size)

/-- Where an index path comes from: the directory that was scanned, the path of the file below
it, and the size that was found. -/
structure Origin where
  root : String
  rel : List Name
  size : UInt64

/-- For each index path, the scan that indexed it last. -/
abbrev Origins := Bytes → Option Origin

namespace Origins

/-- A scan of `root` under a share name has indexed some files. -/
def indexed (o : Origins) (root shareName : String) (files : List (List Name × UInt64)) :
    Origins :=
  files.foldl
    (fun o f ↦ Function.update o (sharePath shareName f.1) (some ⟨root, f.1, f.2⟩)) o

/-- The origins after an operation: a scan sets those of the files that it visits. -/
def after (s : Shares) (o : Origins) : ShareOperation → Origins
  | .scan root _ w =>
    match Shares.shareNameForPath s.shareNames root with
    | .ok shareName => o.indexed root shareName (visitedFiles shareName w.items)
    | .error _ => o
  | .remove _ => o

/-- An operation on an index together with the origins of its paths. -/
def run (so : Shares × Origins) (op : ShareOperation) : Shares × Origins :=
  (op.run so.1, after so.1 so.2 op)

end Origins

/-- Every file of the index has an origin, and its share name still stands for the directory
that was scanned. -/
structure Located (s : Shares) (o : Origins) : Prop where
  names : ∀ k, s.shareNames[k]?.isSome → IsName k
  files : ∀ k b, s.files[k]? = some b →
    ∃ (name root : String) (rel : List Name) (size : UInt64),
      IsName (Utf8.encode name) ∧ rel ≠ [] ∧ k = sharePath name rel ∧ b = Bytes.leU64 size ∧
        s.shareNames[Utf8.encode name]? = some (Utf8.encode root) ∧ o k = some ⟨root, rel, size⟩

/-- A relative path joined to a root is the path of the walked entry. -/
theorem join_eq_entryPath (root : Bytes) {rel : List Name} (hrel : rel ≠ []) :
    join root (joinNames rel) = entryPath root rel := by
  rw [← List.dropLast_append_getLast hrel, join_joinNames_concat, entryPath, List.foldl_append]
  rfl

/-- A walked entry lies below the root. -/
theorem isAncestor_entryPath (root : Bytes) {rel : List Name} (hrel : rel ≠ []) :
    IsAncestor root (entryPath root rel) := by
  rw [IsAncestor, StartsWith, entryPath, components_foldl_join]
  refine ⟨List.prefix_append _ _, ?_⟩
  intro h
  have hnil := List.self_eq_append_right.mp h
  exact hrel (List.map_eq_nil_iff.mp hnil)

namespace Located

variable {s : Shares} {o : Origins}

/-- The empty index has no files. -/
theorem empty : Located Shares.empty fun _ ↦ none where
  names := by simp [Shares.empty]
  files := by simp [Shares.empty]

/-- A path of the index resolves to the file that its origin names. -/
theorem resolvePath_of_file (h : Located s o) {inputPath : String} {b : Bytes}
    (hb : s.files[Utf8.encode inputPath]? = some b) :
    ∃ (root : String) (rel : List Name) (size : UInt64),
      o (Utf8.encode inputPath) = some ⟨root, rel, size⟩ ∧ rel ≠ [] ∧ b = Bytes.leU64 size ∧
        (∃ name : Bytes, s.shareNames[name]? = some (Utf8.encode root)) ∧
          s.resolvePath inputPath = .ok (entryPath (Utf8.encode root) rel, size) := by
  obtain ⟨name, root, rel, size, hname, hrel, hkey, rfl, hroot, horigin⟩ := h.files _ b hb
  refine ⟨root, rel, size, horigin, hrel, rfl, ⟨_, hroot⟩, ?_⟩
  have hcomponents : components (Utf8.encode inputPath) =
      .normal (Utf8.encode name) :: rel.map fun n ↦ .normal n.val := by
    rw [hkey, sharePath_eq hname hrel, components_joinNames]
    rfl
  have hsub := collect_names rel
  rw [Shares.resolvePath, hb]
  simp only [Bytes.readLeU64_leU64, hcomponents, Component.asBytes, Utf8.decode_encode, hroot,
    hsub, join_eq_entryPath (Utf8.encode root) hrel]

/-- Taking out any string keeps the files and names that are left located. -/
theorem removeShareDir (h : Located s o) (shareName : String) :
    Located (s.removeShareDir shareName).1 o := by
  cases hget : s.getDirSize shareName with
  | none =>
    rw [removeShareDir_of_none hget]
    exact h
  | some existingSize =>
    rw [removeShareDir_of_getDirSize hget]
    constructor
    · exact forall_keys_erase h.names _
    · intro k b hb
      simp only [getElem?_removeMatching] at hb
      split at hb
      · cases hb
      · next hkeep =>
        obtain ⟨name, root, rel, size, hname, hrel, rfl, rfl, hroot, horigin⟩ := h.files k b hb
        refine ⟨name, root, rel, size, hname, hrel, rfl, rfl, ?_, horigin⟩
        simp only [getElem?_erase]
        rw [if_neg]
        · exact hroot
        · intro he
          rw [Utf8.encode_inj] at he
          subst he
          exact hkeep ((Consistent.shareKeyMatches_sharePath hname hname hrel).mpr rfl)

/-- A name may be recorded for a path when it stood for that path or for none. -/
theorem insertName (h : Located s o) {shareName root : String}
    (hname : IsName (Utf8.encode shareName))
    (hfree : s.shareNames[Utf8.encode shareName]? = some (Utf8.encode root) ∨
      s.shareNames[Utf8.encode shareName]? = none) :
    Located { s with shareNames := s.shareNames.insert (Utf8.encode shareName) (Utf8.encode root) }
      o where
  names := forall_keys_insert h.names hname (Utf8.encode root)
  files := by
    intro k b hb
    obtain ⟨name, root', rel, size, hvalid, hrel, hkey, hsize, hroot, horigin⟩ := h.files k b hb
    refine ⟨name, root', rel, size, hvalid, hrel, hkey, hsize, ?_, horigin⟩
    simp only [getElem?_insert]
    split
    · next he =>
      rw [he] at hroot
      rcases hfree with hold | hnone
      · rw [← hroot, hold]
      · rw [hnone] at hroot
        cases hroot
    · exact hroot

/-- A scan of a path indexes one more file under its name. -/
theorem scanFile (h : Located s o) {shareName root : String} {names : List Name}
    (hroot : s.shareNames[Utf8.encode shareName]? = some (Utf8.encode root)) (hne : names ≠ [])
    (len : UInt64) (hdec : (Utf8.decode (sharePath shareName names)).isSome) :
    Located (Shares.scanFile root shareName s names len).1
        (Function.update o (sharePath shareName names) (some ⟨root, names, len⟩)) ∧
      (Shares.scanFile root shareName s names len).1.shareNames = s.shareNames := by
  have hname : IsName (Utf8.encode shareName) := h.names _ (by rw [hroot]; rfl)
  obtain ⟨dirs', hrun, -⟩ := scanFile_insert hname root hne len hdec s
  rw [hrun]
  refine ⟨⟨h.names, fun k b hb ↦ ?_⟩, rfl⟩
  simp only [getElem?_insert] at hb
  by_cases hk : k = sharePath shareName names
  · rw [if_pos hk] at hb
    cases hb
    subst hk
    exact ⟨shareName, root, names, len, hname, hne, rfl, rfl, hroot, Function.update_self ..⟩
  · rw [if_neg hk] at hb
    rw [Function.update_of_ne hk]
    exact h.files k b hb

/-- A scan keeps every file located. -/
theorem scan (h : Located s o) (root : String) {t : DirTree} (w : Walk t) :
    Located (s.scan root w.items).1 (Origins.after s o (.scan root t w)) := by
  simp only [Origins.after]
  cases hname : Shares.shareNameForPath s.shareNames root with
  | error e =>
    simp only [Shares.scan, Shares.scanStart, hname]
    exact h
  | ok shareName =>
    have hvalid := isName_shareNameForPath h.names hname
    have hremoved := h.removeShareDir shareName
    -- the name stands for the scanned path, or for none, also after the removal
    have hfree : (s.removeShareDir shareName).1.shareNames[Utf8.encode shareName]? =
          some (Utf8.encode root) ∨
        (s.removeShareDir shareName).1.shareNames[Utf8.encode shareName]? = none := by
      cases hget : s.getDirSize shareName with
      | none =>
        rw [removeShareDir_of_none hget]
        exact shareNames_of_shareNameForPath hname
      | some existingSize =>
        rw [removeShareDir_of_getDirSize hget]
        simp
    have hstart := hremoved.insertName hvalid hfree
    have hrun : s.scanStart root =
        ({ (s.removeShareDir shareName).1 with
           shareNames := (s.removeShareDir shareName).1.shareNames.insert
             (Utf8.encode shareName) (Utf8.encode root) }, .ok shareName) := by
      cases hget : s.getDirSize shareName with
      | none => simp only [Shares.scanStart, hname, removeShareDir_of_none hget]
      | some existingSize =>
        simp only [Shares.scanStart, hname, removeShareDir_of_getDirSize hget]
    have hloop := scanLoop_rule hvalid
      (R := fun s l ↦ Located s (o.indexed root shareName l) ∧
        s.shareNames[Utf8.encode shareName]? = some (Utf8.encode root))
      (fun s l names len hR hne _ hdec ↦ by
        obtain ⟨hnext, hnames⟩ := hR.1.scanFile hR.2 hne len hdec
        rw [hnames, Origins.indexed, List.foldl_append]
        exact ⟨hnext, hR.2⟩)
      (l := []) ⟨hstart, by simp⟩ 0 w.items w.names_ne_nil (by simpa using w.once)
    rw [List.nil_append] at hloop
    rw [Shares.scan, hrun]
    simp only
    generalize Shares.scanLoop root shareName _ 0 w.items = r at hloop ⊢
    obtain ⟨s', r⟩ := r
    cases r with
    | error e => exact hloop.1
    | ok added => exact hloop.1

/-- Every operation keeps every file located. -/
theorem run (h : Located s o) (op : ShareOperation) :
    Located (op.run s) (Origins.after s o op) := by
  cases op with
  | scan root t w => exact h.scan root w
  | remove shareName => exact h.removeShareDir shareName

end Located

/-- After any run of scans and removals every file is located. -/
theorem located_finalState (ops : List ShareOperation) :
    Located (finalState Origins.run (Shares.empty, fun _ ↦ none) ops).1
      (finalState Origins.run (Shares.empty, fun _ ↦ none) ops).2 := by
  have hfree : EachStep Origins.run (fun _ _ ↦ True) (Shares.empty, fun _ ↦ none) ops :=
    eachStep_of_forall fun _ _ ↦ trivial
  exact (eachState_of_invariant (I := fun so ↦ Located so.1 so.2) Located.empty hfree
    fun so op h _ ↦ h.run op).final

/-- After any run of scans and removals, whatever string a peer asks for: it resolves exactly
when it is an index path, and then to the file that the scan which indexed it found, which lies
below a directory that is shared, with the size that was found. Every listed file resolves. -/
theorem resolvePath_exact (ops : List ShareOperation) (s : Shares) (o : Origins)
    (hrun : finalState Origins.run (Shares.empty, fun _ ↦ none) ops = (s, o))
    (inputPath : String) :
    ((∃ r, s.resolvePath inputPath = .ok r) ↔ s.files[Utf8.encode inputPath]?.isSome) ∧
      (∀ path size, s.resolvePath inputPath = .ok (path, size) →
        ∃ (root : String) (rel : List Name), o (Utf8.encode inputPath) = some ⟨root, rel, size⟩ ∧
          path = join (Utf8.encode root) (joinNames rel) ∧
            path = entryPath (Utf8.encode root) rel ∧ IsAncestor (Utf8.encode root) path ∧
              ∃ name : Bytes, s.shareNames[name]? = some (Utf8.encode root)) ∧
      ∀ toLowercase path searchterm recursive responses,
        s.query toLowercase path searchterm recursive = .ok responses →
          ∀ e ∈ responses.flatMap LsResponse.entries, e.isDir = false →
            ∃ resolved, s.resolvePath e.name = .ok (resolved, e.size) := by
  have h := located_finalState ops
  rw [hrun] at h
  refine ⟨⟨?_, ?_⟩, ?_, ?_⟩
  · rintro ⟨r, hr⟩
    cases hb : s.files[Utf8.encode inputPath]? with
    | none =>
      rw [Shares.resolvePath, hb] at hr
      cases hr
    | some b => rfl
  · intro hfile
    obtain ⟨b, hb⟩ := Option.isSome_iff_exists.mp hfile
    obtain ⟨root, rel, size, -, -, -, -, hok⟩ := h.resolvePath_of_file hb
    exact ⟨_, hok⟩
  · intro path size hr
    cases hb : s.files[Utf8.encode inputPath]? with
    | none =>
      rw [Shares.resolvePath, hb] at hr
      cases hr
    | some b =>
      obtain ⟨root, rel, size', horigin, hrel, -, hshared, hok⟩ := h.resolvePath_of_file hb
      rw [hr] at hok
      cases hok
      exact ⟨root, rel, horigin, (join_eq_entryPath _ hrel).symm, rfl,
        isAncestor_entryPath _ hrel, hshared⟩
  · intro toLowercase path searchterm recursive responses hquery e he hfile
    have hb := Shares.files_of_mem_query toLowercase hquery he hfile
    obtain ⟨root, rel, size, -, -, hsize, -, hok⟩ := h.resolvePath_of_file hb
    rw [Bytes.leU64_inj.mp hsize]
    exact ⟨_, hok⟩

/-- Two directories with the same base name are shared, the second under an alias, as in the
test at `src/shares.rs:567`. -/
def twoMusicShares : List ShareOperation :=
  [.scan "/first/Music" _ (Walk.oneFile oneTxt 3), .scan "/second/Music" _ (Walk.oneFile twoTxt 3)]

/-- A file of the second one is found below its own directory. -/
theorem resolvePath_alias :
    ∃ s o, finalState Origins.run (Shares.empty, fun _ ↦ none) twoMusicShares = (s, o) ∧
      s.resolvePath "second - Music/two.txt" = .ok (Utf8.encode "/second/Music/two.txt", 3) ∧
        ∃ r, s.resolvePath "second - Music/two.txt" = .ok r := by
  refine ⟨_, _, rfl, by decide, ?_⟩
  apply (resolvePath_exact twoMusicShares _ _ rfl "second - Music/two.txt").1.mpr
  decide

end HarddriveParty
