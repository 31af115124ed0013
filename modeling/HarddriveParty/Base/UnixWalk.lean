import HarddriveParty.Base.UnixFs

/-!
# Where a path leads

Library module. The walks of the file system as derivations, and from them what the calls
do below a directory that a path leads to. Added directories and files do not change where
a path leads.
-/

namespace UnixFs

open UnixPath

namespace Fs

variable {fs fs' : Fs} {q : List Name}

/-- The derivations of a walk: `Walks fs followLast links dir ps q` says that the pieces lead
from `dir` to `q` over at most so many links. -/
inductive Walks (fs : Fs) (followLast : Bool) :
    Nat → List Name → List Bytes → List Name → Prop
  | done {links dir} : Walks fs followLast links dir [] dir
  | skip {links dir piece rest q} : piece = [] ∨ piece = [dot] →
      Walks fs followLast links dir rest q → Walks fs followLast links dir (piece :: rest) q
  | up {links dir rest q} : Walks fs followLast links dir.dropLast rest q →
      Walks fs followLast links dir ([dot, dot] :: rest) q
  | missing {links dir} {n : Name} : fs.node (dir ++ [n]) = none →
      Walks fs followLast links dir [n.val] (dir ++ [n])
  | file {links dir c} {n : Name} : fs.node (dir ++ [n]) = some (.file c) →
      Walks fs followLast links dir [n.val] (dir ++ [n])
  | last {links dir target} {n : Name} : fs.node (dir ++ [n]) = some (.symlink target) →
      followLast = false → Walks fs followLast links dir [n.val] (dir ++ [n])
  | enter {links dir rest q} {n : Name} : fs.node (dir ++ [n]) = some .dir →
      Walks fs followLast links (dir ++ [n]) rest q →
      Walks fs followLast links dir (n.val :: rest) q
  | follow {links dir rest q target} {n : Name} :
      fs.node (dir ++ [n]) = some (.symlink target) → rest ≠ [] ∨ followLast = true →
      Walks fs followLast links (start dir target) (pieces target ++ rest) q →
      Walks fs followLast (links + 1) dir (n.val :: rest) q

section Walks

variable {followLast : Bool} {links : Nat} {dir : List Name} {ps : List Bytes}

private theorem walks_of_walkPieces
    {follow : List Name → Bytes → List Bytes → Except ErrorKind (List Name)}
    (hfollow : ∀ dir target rest n, fs.node (dir ++ [n]) = some (.symlink target) →
      rest ≠ [] ∨ followLast = true → follow dir target rest = .ok q →
        Walks fs followLast links dir (n.val :: rest) q)
    (h : walkPieces fs followLast follow dir ps = .ok q) : Walks fs followLast links dir ps q := by
  induction ps generalizing dir with
  | nil =>
    cases h
    exact .done
  | cons piece rest ih =>
    rw [walkPieces] at h
    split at h
    · next hskip => exact .skip hskip (ih h)
    · next hskip =>
      split at h
      · next hup =>
        subst hup
        exact .up (ih h)
      · next hup =>
        split at h
        · next hname =>
          let n : Name := ⟨piece, hname⟩
          simp only at h
          cases hnode : fs.node (dir ++ [n]) with
          | none =>
            simp only [n, hnode] at h
            split at h
            · next hrest =>
              subst hrest
              cases h
              exact .missing hnode
            · cases h
          | some x =>
            cases x with
            | dir =>
              simp only [n, hnode] at h
              exact .enter hnode (ih h)
            | file c =>
              simp only [n, hnode] at h
              split at h
              · next hrest =>
                subst hrest
                cases h
                exact .file hnode
              · cases h
            | symlink target =>
              simp only [n, hnode] at h
              split at h
              · next hlast =>
                obtain ⟨rfl, hf⟩ := hlast
                cases h
                exact .last hnode hf
              · next hlast =>
                apply hfollow dir target rest n hnode _ h
                by_cases hr : rest = []
                · exact Or.inr (by simpa [hr] using hlast)
                · exact Or.inl hr
        · cases h

private theorem name_ne (n : Name) : ¬ (n.val = [] ∨ n.val = [dot]) ∧ n.val ≠ [dot, dot] :=
  ⟨not_or.mpr ⟨n.property.1, n.property.2.2.1⟩, n.property.2.2.2⟩

/-- A walk that succeeds has a derivation. -/
theorem walks_of_walk (h : walk fs followLast links dir ps = .ok q) :
    Walks fs followLast links dir ps q := by
  induction links generalizing dir ps with
  | zero =>
    apply walks_of_walkPieces _ h
    intro dir target rest n hnode hrest hf
    cases hf
  | succ links ih =>
    apply walks_of_walkPieces _ h
    intro dir target rest n hnode hrest hf
    exact .follow hnode hrest (ih hf)

private theorem walkPieces_name
    (follow : List Name → Bytes → List Bytes → Except ErrorKind (List Name)) (n : Name)
    (rest : List Bytes) :
    walkPieces fs followLast follow dir (n.val :: rest) =
      match fs.node (dir ++ [n]) with
      | none => if rest = [] then .ok (dir ++ [n]) else .error .notFound
      | some .dir => walkPieces fs followLast follow (dir ++ [n]) rest
      | some (.file _) => if rest = [] then .ok (dir ++ [n]) else .error .notADirectory
      | some (.symlink target) =>
        if rest = [] ∧ followLast = false then .ok (dir ++ [n]) else follow dir target rest := by
  exact (if_neg (name_ne n).1).trans ((if_neg (name_ne n).2).trans (dif_pos n.property))

private def behind (fs : Fs) (followLast : Bool) :
    Nat → List Name → Bytes → List Bytes → Except ErrorKind (List Name)
  | 0 => fun _ _ _ ↦ .error .filesystemLoop
  | links + 1 => fun dir target rest ↦
    walk fs followLast links (start dir target) (pieces target ++ rest)

private theorem walk_eq_walkPieces (links : Nat) :
    walk fs followLast links = walkPieces fs followLast (behind fs followLast links) := by
  cases links <;> rfl

/-- A derivation is a walk that succeeds. -/
theorem Walks.walk_eq (h : Walks fs followLast links dir ps q) :
    walk fs followLast links dir ps = .ok q := by
  induction h with
  | done =>
    rw [walk_eq_walkPieces]
    rfl
  | skip hskip _ ih =>
    rw [walk_eq_walkPieces] at ih ⊢
    rw [walkPieces, if_pos hskip, ih]
  | up _ ih =>
    rw [walk_eq_walkPieces] at ih ⊢
    rw [walkPieces, if_neg (by decide), if_pos rfl, ih]
  | missing hnode | file hnode =>
    rw [walk_eq_walkPieces, walkPieces_name, hnode]
    rfl
  | last hnode hf =>
    rw [walk_eq_walkPieces, walkPieces_name, hnode]
    exact if_pos ⟨rfl, hf⟩
  | enter hnode _ ih =>
    rw [walk_eq_walkPieces] at ih ⊢
    rw [walkPieces_name, hnode]
    exact ih
  | follow hnode hrest _ ih =>
    rw [walk_eq_walkPieces, walkPieces_name, hnode]
    refine (if_neg ?_).trans ih
    rintro ⟨hr, hf⟩
    rcases hrest with hrest | hrest
    · exact hrest hr
    · rw [hf] at hrest
      cases hrest

/-- The derivations are the walks that succeed. -/
theorem walks_iff : Walks fs followLast links dir ps q ↔
    walk fs followLast links dir ps = .ok q := ⟨Walks.walk_eq, walks_of_walk⟩

/-- A separator at the end of a path that leads somewhere may be left out. -/
theorem Walks.drop_empty (h : Walks fs true links dir (ps ++ [[]]) q) :
    Walks fs true links dir ps q := by
  generalize hqs : ps ++ [[]] = qs at h
  induction h generalizing ps with
  | done => simp at hqs
  | @skip links dir piece rest q hskip hrest ih =>
    cases ps with
    | nil =>
      cases hqs
      exact hrest
    | cons p ps =>
      cases hqs
      exact .skip hskip (ih rfl)
  | up hrest ih =>
    cases ps with
    | nil => cases hqs
    | cons p ps =>
      cases hqs
      exact .up (ih rfl)
  | @missing links dir n hnode | @file links dir c n hnode =>
    cases ps with
    | nil => exact absurd (List.cons.inj hqs).1.symm n.property.1
    | cons p ps => simp at hqs
  | last _ hf => cases hf
  | @enter links dir rest q n hnode hrest ih =>
    cases ps with
    | nil => exact absurd (List.cons.inj hqs).1.symm n.property.1
    | cons p ps =>
      cases hqs
      exact .enter hnode (ih rfl)
  | @follow links dir rest q target n hnode _ hrest ih =>
    cases ps with
    | nil => exact absurd (List.cons.inj hqs).1.symm n.property.1
    | cons p ps =>
      cases hqs
      exact .follow hnode (Or.inr rfl) (ih (by simp))

/-- Behind the pieces of a path to a directory the walk goes on from the directory. -/
theorem Walks.append_eq {C : List Name} (h : Walks fs true links dir ps C)
    (hC : fs.node C = some .dir) {rest : List Bytes} (hrest : rest ≠ []) (followLast : Bool) :
    ∃ links', walk fs followLast links dir (ps ++ rest) = walk fs followLast links' C rest := by
  induction h with
  | @done links dir => exact ⟨links, rfl⟩
  | skip hskip _ ih =>
    obtain ⟨links', ih⟩ := ih hC
    refine ⟨links', Eq.trans ?_ ih⟩
    rw [walk_eq_walkPieces, List.cons_append, walkPieces, if_pos hskip]
  | up _ ih =>
    obtain ⟨links', ih⟩ := ih hC
    refine ⟨links', Eq.trans ?_ ih⟩
    rw [walk_eq_walkPieces, List.cons_append, walkPieces, if_neg (by decide), if_pos rfl]
  | missing hnode | file hnode =>
    rw [hnode] at hC
    cases hC
  | last _ hf => cases hf
  | enter hnode _ ih =>
    obtain ⟨links', ih⟩ := ih hC
    refine ⟨links', Eq.trans ?_ ih⟩
    rw [walk_eq_walkPieces, List.cons_append, walkPieces_name, hnode]
  | @follow links dir ps C target n hnode _ _ ih =>
    obtain ⟨links', ih⟩ := ih hC
    refine ⟨links', Eq.trans ?_ ih⟩
    rw [walk_eq_walkPieces, List.cons_append, walkPieces_name, hnode, List.append_assoc]
    simp [hrest, behind]

/-- One entry of a directory. -/
theorem walk_entry {C : List Name} {n : Name}
    (hn : followLast = true → ∀ target, fs.node (C ++ [n]) ≠ some (.symlink target)) :
    walk fs followLast links C [n.val] = .ok (C ++ [n]) := by
  rw [walk_eq_walkPieces, walkPieces_name]
  cases hnode : fs.node (C ++ [n]) with
  | none => rfl
  | some x =>
    cases x with
    | dir | file c => rfl
    | symlink target =>
      apply if_pos
      refine ⟨rfl, ?_⟩
      by_contra hf
      exact hn (by simpa using hf) target hnode

/-- Nothing lies behind a missing entry. -/
theorem walk_missing {C : List Name} {n : Name} (hn : fs.node (C ++ [n]) = none)
    {rest : List Bytes} (hrest : rest ≠ []) :
    walk fs followLast links C (n.val :: rest) = .error .notFound := by
  rw [walk_eq_walkPieces, walkPieces_name, hn]
  exact if_neg hrest

/-- A path that leads somewhere ends there or in a link. -/
theorem Walks.stop_at_link (h : Walks fs true links dir ps q) :
    ∃ r, Walks fs false links dir ps r ∧
      (r = q ∨ ∃ target, fs.node r = some (.symlink target)) := by
  induction h with
  | done => exact ⟨_, .done, Or.inl rfl⟩
  | skip hskip _ ih =>
    obtain ⟨r, hr, hend⟩ := ih
    exact ⟨r, .skip hskip hr, hend⟩
  | up _ ih =>
    obtain ⟨r, hr, hend⟩ := ih
    exact ⟨r, .up hr, hend⟩
  | missing hnode => exact ⟨_, .missing hnode, Or.inl rfl⟩
  | file hnode => exact ⟨_, .file hnode, Or.inl rfl⟩
  | last _ hf => cases hf
  | enter hnode _ ih =>
    obtain ⟨r, hr, hend⟩ := ih
    exact ⟨r, .enter hnode hr, hend⟩
  | @follow links dir rest q target n hnode _ _ ih =>
    by_cases hrest : rest = []
    · subst hrest
      exact ⟨_, .last hnode rfl, Or.inr ⟨target, hnode⟩⟩
    · obtain ⟨r, hr, hend⟩ := ih
      exact ⟨r, .follow hnode (Or.inl hrest) hr, hend⟩

end Walks

section Grow

/-- Only directories and regular files were added, and files may have other content. -/
structure Grows (fs fs' : Fs) : Prop where
  cwd : fs'.cwd = fs.cwd
  dir : ∀ q, fs.node q = some .dir → fs'.node q = some .dir
  file : ∀ q c, fs.node q = some (.file c) → ∃ c', fs'.node q = some (.file c')
  symlink : ∀ q target, fs'.node q = some (.symlink target) ↔ fs.node q = some (.symlink target)

/-- Nothing was added. -/
theorem Grows.refl (fs : Fs) : Grows fs fs :=
  ⟨rfl, fun _ h ↦ h, fun _ c h ↦ ⟨c, h⟩, fun _ _ ↦ Iff.rfl⟩

/-- What was added at first stays. -/
theorem Grows.trans {fs₁ fs₂ fs₃ : Fs} (h : Grows fs₁ fs₂) (h' : Grows fs₂ fs₃) :
    Grows fs₁ fs₃ where
  cwd := h'.cwd.trans h.cwd
  dir := fun q hq ↦ h'.dir q (h.dir q hq)
  file := fun q c hq ↦ by
    obtain ⟨c', hc'⟩ := h.file q c hq
    exact h'.file q c' hc'
  symlink := fun q target ↦ (h'.symlink q target).trans (h.symlink q target)

/-- Paths keep leading to the same locations. -/
theorem Walks.grows {followLast : Bool} {links : Nat} {dir : List Name} {ps : List Bytes}
    (h : Walks fs followLast links dir ps q) (hg : Grows fs fs') :
    Walks fs' followLast links dir ps q := by
  induction h with
  | done => exact .done
  | skip hskip _ ih => exact .skip hskip ih
  | up _ ih => exact .up ih
  | @missing links dir n hnode =>
    cases hnode' : fs'.node (dir ++ [n]) with
    | none => exact .missing hnode'
    | some x =>
      cases x with
      | dir => exact .enter hnode' .done
      | file c => exact .file hnode'
      | symlink target =>
        rw [hg.symlink, hnode] at hnode'
        cases hnode'
  | file hnode =>
    obtain ⟨c, hc⟩ := hg.file _ _ hnode
    exact .file hc
  | last hnode hf => exact .last ((hg.symlink _ _).mpr hnode) hf
  | enter hnode _ ih => exact .enter (hg.dir _ hnode) ih
  | follow hnode hrest _ ih => exact .follow ((hg.symlink _ _).mpr hnode) hrest ih

end Grow

section Paths

/-- When a path is resolved. -/
theorem resolve_eq_ok_iff {followLast : Bool} {path : Bytes} :
    fs.resolve followLast path = .ok q ↔ path ≠ [] ∧ 0 ∉ path ∧
      Walks fs followLast maxLinks (start fs.cwd path) (pieces path) q := by
  unfold resolve
  split
  · next hnil => simp [hnil]
  · next hnil =>
    split
    · next hnul => simp [hnul]
    · next hnul => simp [hnil, hnul, walks_iff]

/-- A path with a zero byte is refused. -/
theorem resolve_of_nul {path : Bytes} (h : 0 ∈ path) (followLast : Bool) :
    fs.resolve followLast path = .error .invalidInput := by
  rw [resolve, if_neg (List.ne_nil_of_mem h), if_pos h]

/-- The node at a location. -/
theorem nodeAt_eq_ok_iff {x : Node} : fs.nodeAt q = .ok x ↔ fs.node q = some x := by
  unfold nodeAt
  cases fs.node q <;> simp

/-- The path leads to the directory at a location. -/
def Leads (fs : Fs) (path : Bytes) (C : List Name) : Prop :=
  fs.resolve true path = .ok C ∧ fs.node C = some .dir

/-- A path of a directory leads to it. -/
theorem exists_leads_of_metadata {path : Bytes} (h : fs.metadata path = .ok .dir) :
    ∃ C, Leads fs path C := by
  cases hr : fs.resolve true path with
  | error e =>
    rw [metadata, hr] at h
    cases h
  | ok C =>
    rw [metadata, hr] at h
    exact ⟨C, hr, nodeAt_eq_ok_iff.mp h⟩

/-- Without following a link at its end the path of a directory is found, too. -/
theorem Leads.symlinkMetadata_cases {path : Bytes} {C : List Name} (h : Leads fs path C) :
    fs.symlinkMetadata path = .ok .dir ∨
      ∃ target, fs.symlinkMetadata path = .ok (.symlink target) := by
  obtain ⟨hpath, hnul, hw⟩ := resolve_eq_ok_iff.mp h.1
  obtain ⟨r, hr, hend⟩ := hw.stop_at_link
  have hres : fs.resolve false path = .ok r := resolve_eq_ok_iff.mpr ⟨hpath, hnul, hr⟩
  rw [Fs.symlinkMetadata, hres]
  show fs.nodeAt r = _ ∨ ∃ target, fs.nodeAt r = _
  rcases hend with rfl | ⟨target, ht⟩
  · left
    rw [nodeAt, h.2]
  · right
    exact ⟨target, by rw [nodeAt, ht]⟩

/-- A path keeps being resolved to the same location while entries are added. -/
theorem resolve_grows {followLast : Bool} {path : Bytes} (h : fs.resolve followLast path = .ok q)
    (hg : Grows fs fs') : fs'.resolve followLast path = .ok q := by
  obtain ⟨hpath, hnul, hw⟩ := resolve_eq_ok_iff.mp h
  rw [resolve_eq_ok_iff, hg.cwd]
  exact ⟨hpath, hnul, hw.grows hg⟩

/-- Added files and directories do not change where a path leads. -/
theorem Leads.grows {path : Bytes} {C : List Name} (h : Leads fs path C) (hg : Grows fs fs') :
    Leads fs' path C :=
  ⟨resolve_grows h.1 hg, hg.dir C h.2⟩

/-- The node of a path, with its location. -/
theorem symlinkMetadata_eq_ok_iff {path : Bytes} {x : Node} :
    fs.symlinkMetadata path = .ok x ↔
      ∃ q, fs.resolve false path = .ok q ∧ fs.node q = some x := by
  unfold symlinkMetadata
  cases hr : fs.resolve false path with
  | error e =>
    constructor
    · intro h
      cases h
    · rintro ⟨q, hq, -⟩
      cases hq
  | ok q =>
    constructor
    · intro h
      exact ⟨q, rfl, nodeAt_eq_ok_iff.mp h⟩
    · rintro ⟨q', hq', hx⟩
      cases hq'
      exact nodeAt_eq_ok_iff.mpr hx

/-- A real directory stays one. -/
theorem symlinkMetadata_grows {path : Bytes} (h : fs.symlinkMetadata path = .ok .dir)
    (hg : Grows fs fs') : fs'.symlinkMetadata path = .ok .dir := by
  obtain ⟨q, hr, hnode⟩ := symlinkMetadata_eq_ok_iff.mp h
  exact symlinkMetadata_eq_ok_iff.mpr ⟨q, resolve_grows hr hg, hg.dir q hnode⟩

/-- A link stays one. -/
theorem symlinkMetadata_symlink_grows {path target : Bytes}
    (h : fs.symlinkMetadata path = .ok (.symlink target)) (hg : Grows fs fs') :
    fs'.symlinkMetadata path = .ok (.symlink target) := by
  obtain ⟨q, hr, hnode⟩ := symlinkMetadata_eq_ok_iff.mp h
  exact symlinkMetadata_eq_ok_iff.mpr ⟨q, resolve_grows hr hg, (hg.symlink q target).mpr hnode⟩

private theorem pieces_join {path : Bytes} (h : path ≠ []) {ns : List Name} (hns : ns ≠ []) :
    ∃ ps, pieces (join path (joinNames ns)) = ps ++ ns.map Subtype.val ∧
      (pieces path = ps ∨ pieces path = ps ++ [[]]) := by
  rw [join, if_neg (head?_joinNames ns)]
  by_cases hl : path.getLast? = some slash
  · obtain ⟨p, rfl⟩ := List.getLast?_eq_some_iff.mp hl
    refine ⟨pieces p, ?_, Or.inr (pieces_concat_slash p)⟩
    rw [if_pos (Or.inr hl), List.append_assoc, List.singleton_append,
      pieces_append_joinNames p hns]
  · refine ⟨pieces path, ?_, Or.inl rfl⟩
    rw [if_neg (by simp [h, hl]), pieces_append_joinNames path hns]

private theorem start_join {path : Bytes} (h : path ≠ []) (ns : List Name) (dir : List Name) :
    start dir (join path (joinNames ns)) = start dir path := by
  obtain ⟨b, path, rfl⟩ := List.exists_cons_of_ne_nil h
  rw [join, if_neg (head?_joinNames ns)]
  split <;> simp [start]

/-- A joined path has a zero byte when one of its parts has. -/
theorem nul_join {path : Bytes} {ns : List Name} :
    0 ∈ join path (joinNames ns) ↔ 0 ∈ path ∨ ∃ n ∈ ns, 0 ∈ n.val := by
  rw [← mem_joinNames (by decide), join, if_neg (head?_joinNames ns)]
  split
  · simp
  · simp [slash]

variable {path : Bytes} {C : List Name} {n : Name}

/-- A path below a directory is resolved from the directory. -/
theorem Leads.resolve_names (h : Leads fs path C) {ns : List Name} (hns : ns ≠ [])
    (hnul : ∀ n ∈ ns, 0 ∉ n.val) (followLast : Bool) :
    ∃ links, fs.resolve followLast (join path (joinNames ns)) =
      walk fs followLast links C (ns.map Subtype.val) := by
  obtain ⟨hpath, hpnul, hw⟩ := resolve_eq_ok_iff.mp h.1
  obtain ⟨ps, hjoin, hps⟩ := pieces_join hpath hns
  have hdrop : Walks fs true maxLinks (start fs.cwd path) ps C := by
    rcases hps with hps | hps
    · rwa [hps] at hw
    · rw [hps] at hw
      exact hw.drop_empty
  have hnil : join path (joinNames ns) ≠ [] := by
    intro hj
    have hp := congrArg pieces hj
    rw [hjoin] at hp
    obtain ⟨n, ns, rfl⟩ := List.exists_cons_of_ne_nil hns
    cases ps with
    | nil => exact n.property.1 (List.cons.inj hp).1
    | cons p ps =>
      have hl := congrArg List.length hp
      simp [pieces] at hl
  have hnotnul : 0 ∉ join path (joinNames ns) := by
    rw [nul_join]
    rintro (hz | ⟨n, hn, hz⟩)
    · exact hpnul hz
    · exact hnul n hn hz
  obtain ⟨links, hlinks⟩ := hdrop.append_eq h.2 (mt List.map_eq_nil_iff.mp hns) followLast
  refine ⟨links, ?_⟩
  rw [resolve, if_neg hnil, if_neg hnotnul, start_join hpath, hjoin, hlinks]

/-- An entry of a directory is found under the joined path. -/
theorem Leads.resolve_join (h : Leads fs path C) (hnul : 0 ∉ n.val) (followLast : Bool)
    (hn : followLast = true → ∀ target, fs.node (C ++ [n]) ≠ some (.symlink target)) :
    fs.resolve followLast (join path n.val) = .ok (C ++ [n]) := by
  obtain ⟨links, hl⟩ := h.resolve_names (List.cons_ne_nil n []) (by simpa using hnul) followLast
  rw [joinNames_singleton] at hl
  exact hl.trans (walk_entry hn)

/-- A subdirectory is a directory. -/
theorem Leads.enter (h : Leads fs path C) (hnul : 0 ∉ n.val)
    (hn : fs.node (C ++ [n]) = some .dir) : Leads fs (join path n.val) (C ++ [n]) := by
  refine ⟨h.resolve_join hnul true fun _ target ht ↦ ?_, hn⟩
  rw [hn] at ht
  cases ht

/-- The node of an entry of a directory. -/
theorem Leads.symlinkMetadata_join (h : Leads fs path C) (hnul : 0 ∉ n.val) :
    fs.symlinkMetadata (join path n.val) = fs.nodeAt (C ++ [n]) := by
  have hr := h.resolve_join (n := n) hnul false (fun hf ↦ by cases hf)
  rw [Fs.symlinkMetadata, hr]
  rfl

/-- A missing entry of a directory can be created. -/
theorem Leads.createDir_join (h : Leads fs path C) (hnul : 0 ∉ n.val)
    (hn : fs.node (C ++ [n]) = none) :
    fs.createDir (join path n.val) = (fs.put (C ++ [n]) .dir, .ok ()) := by
  have hr := h.resolve_join (n := n) hnul false (fun hf ↦ by cases hf)
  obtain ⟨hpath, hpnul, hw⟩ := resolve_eq_ok_iff.mp hr
  have hlast : (pieces (join path n.val)).rdropWhile (fun piece ↦ decide (piece = [])) =
      pieces (join path n.val) := by
    obtain ⟨ps, hjoin, -⟩ := pieces_join (resolve_eq_ok_iff.mp h.1).1 (List.cons_ne_nil n [])
    rw [joinNames_singleton] at hjoin
    rw [hjoin, List.map_singleton, List.rdropWhile_concat_neg]
    simpa using n.property.1
  rw [createDir, if_neg hpath, if_neg hpnul, hlast, walks_iff.mp hw]
  simp only [hn]

/-- Opening a regular file of a directory changes nothing. -/
theorem Leads.openAppend_file (h : Leads fs path C) (hnul : 0 ∉ n.val) {c : Bytes}
    (hn : fs.node (C ++ [n]) = some (.file c)) :
    fs.openAppend (join path n.val) = (fs, .ok (C ++ [n])) := by
  have hr := h.resolve_join (n := n) hnul true (fun _ target ht ↦ by
    rw [hn] at ht
    cases ht)
  rw [openAppend, hr]
  simp only [hn]

/-- Opening a missing entry of a directory creates an empty file. -/
theorem Leads.openAppend_missing (h : Leads fs path C) (hnul : 0 ∉ n.val)
    (hn : fs.node (C ++ [n]) = none) :
    fs.openAppend (join path n.val) = (fs.put (C ++ [n]) (.file []), .ok (C ++ [n])) := by
  have hr := h.resolve_join (n := n) hnul true (fun _ target ht ↦ by
    rw [hn] at ht
    cases ht)
  rw [openAppend, hr]
  simp only [hn]

/-- Reading a regular file of a directory. -/
theorem Leads.read_join (h : Leads fs path C) (hnul : 0 ∉ n.val) {c : Bytes}
    (hn : fs.node (C ++ [n]) = some (.file c)) : fs.read (join path n.val) = .ok c := by
  have hr := h.resolve_join (n := n) hnul true (fun _ target ht ↦ by
    rw [hn] at ht
    cases ht)
  have hmeta : fs.metadata (join path n.val) = .ok (.file c) := by
    rw [metadata, hr]
    show fs.nodeAt _ = _
    rw [nodeAt, hn]
  rw [read, hmeta]

/-- A missing entry of a directory cannot be read. -/
theorem Leads.read_missing (h : Leads fs path C) (hnul : 0 ∉ n.val)
    (hn : fs.node (C ++ [n]) = none) : fs.read (join path n.val) = .error .notFound := by
  have hr := h.resolve_join (n := n) hnul true (fun _ target ht ↦ by
    rw [hn] at ht
    cases ht)
  have hmeta : fs.metadata (join path n.val) = .error .notFound := by
    rw [metadata, hr]
    show fs.nodeAt _ = _
    rw [nodeAt, hn]
  rw [read, hmeta]

/-- Nothing below a missing entry of a directory can be read. -/
theorem Leads.read_below_missing (h : Leads fs path C) {ns : List Name} (hns : ns ≠ [])
    (hnul : ∀ m ∈ n :: ns, 0 ∉ m.val) (hn : fs.node (C ++ [n]) = none) :
    fs.read (join path (joinNames (n :: ns))) = .error .notFound := by
  obtain ⟨links, hl⟩ := h.resolve_names (List.cons_ne_nil n ns) hnul true
  rw [List.map_cons, walk_missing hn (mt List.map_eq_nil_iff.mp hns)] at hl
  rw [read, metadata, hl]
  rfl

/-- A path with a zero byte cannot be read. -/
theorem read_of_nul (h : 0 ∈ path) : fs.read path = .error .invalidInput := by
  rw [read, metadata, resolve_of_nul h]
  rfl

/-- There is nothing below a missing entry. -/
theorem node_append_of_none (hq : fs.node q = none) (ns : List Name) :
    fs.node (q ++ ns) = none := by
  induction ns using List.reverseRecOn with
  | nil => rwa [List.append_nil]
  | append_singleton ns n ih =>
    by_contra hne
    rw [← List.append_assoc] at hne
    have hdir := fs.parent (q ++ ns) n (Option.isSome_iff_ne_none.mpr hne)
    rw [ih] at hdir
    cases hdir

private theorem grows_put {x : Node} (hx : x = .dir ∨ ∃ c, x = .file c)
    (hq : fs.node q = none ∨ (∃ c, fs.node q = some (.file c)) ∧ ∃ c, x = .file c) :
    Grows fs (fs.put q x) := by
  refine ⟨cwd_put _ _, ?_, ?_, ?_⟩
  · intro r hr
    unfold put
    split
    · next hcond =>
      have hne : r ≠ q := by
        rintro rfl
        exact hcond.2.2 hr
      exact (if_neg hne).trans hr
    · exact hr
  · intro r c hr
    unfold put
    split
    · by_cases hrq : r = q
      · subst hrq
        rcases hq with hq | ⟨-, c', rfl⟩
        · rw [hr] at hq
          cases hq
        · exact ⟨c', if_pos rfl⟩
      · exact ⟨c, (if_neg hrq).trans hr⟩
    · exact ⟨c, hr⟩
  · intro r target
    unfold put
    split
    · by_cases hrq : r = q
      · subst hrq
        have hno : fs.node r ≠ some (.symlink target) := by
          rcases hq with hq | ⟨⟨c, hq⟩, -⟩ <;> simp [hq]
        have hnew : some x ≠ some (Node.symlink target) := by
          rcases hx with rfl | ⟨c, rfl⟩ <;> simp
        constructor
        · intro h
          exact absurd ((if_pos rfl).symm.trans h) hnew
        · intro h
          exact absurd h hno
      · show (if r = q then some x else fs.node r) = _ ↔ _
        rw [if_neg hrq]
    · rfl

/-- Creating a directory adds at most the directory. -/
theorem grows_createDir (fs : Fs) (path : Bytes) : Grows fs (fs.createDir path).1 := by
  unfold createDir
  split
  · exact Grows.refl fs
  · split
    · exact Grows.refl fs
    · split
      · exact Grows.refl fs
      · split
        · exact Grows.refl fs
        · next hnode => exact grows_put (Or.inl rfl) (Or.inl hnode)

private theorem grows_createDirAllWithin (fuel : Nat) (fs : Fs) (path : Bytes) :
    Grows fs (createDirAllWithin fuel fs path).1 := by
  induction fuel generalizing fs path with
  | zero => exact Grows.refl fs
  | succ fuel ih =>
    rw [createDirAllWithin]
    split
    · exact Grows.refl fs
    · have hcreate := grows_createDir fs path
      split
      · next hrun => rwa [hrun] at hcreate
      · next fs₁ hrun =>
        rw [hrun] at hcreate
        split
        · exact hcreate
        · next parent _ =>
          have hparent := ih fs₁ parent
          split
          · next hrun₁ =>
            rw [hrun₁] at hparent
            exact hcreate.trans hparent
          · next fs₂ hrun₁ =>
            rw [hrun₁] at hparent
            have hagain := grows_createDir fs₂ path
            split
            · next hrun₂ =>
              rw [hrun₂] at hagain
              exact (hcreate.trans hparent).trans hagain
            · next hrun₂ =>
              rw [hrun₂] at hagain
              split <;> exact (hcreate.trans hparent).trans hagain
      · next hrun =>
        rw [hrun] at hcreate
        split <;> exact hcreate

/-- Creating the directories of a path adds at most these. -/
theorem grows_createDirAll (fs : Fs) (path : Bytes) : Grows fs (fs.createDirAll path).1 :=
  grows_createDirAllWithin _ _ _

/-- Opening a file adds at most the file. -/
theorem grows_openAppend (fs : Fs) (path : Bytes) : Grows fs (fs.openAppend path).1 := by
  unfold openAppend
  split
  · exact Grows.refl fs
  · split
    · next hnode => exact grows_put (Or.inr ⟨[], rfl⟩) (Or.inl hnode)
    · exact Grows.refl fs
    · exact Grows.refl fs
    · exact Grows.refl fs

private theorem dropLast_dir (h : fs.node q = some .dir) : fs.node q.dropLast = some .dir := by
  rcases List.eq_nil_or_concat q with rfl | ⟨ns, n, rfl⟩
  · exact h
  · rw [List.concat_eq_append] at h ⊢
    rw [List.dropLast_concat]
    apply fs.parent ns n
    rw [h]
    rfl

/-- The resolution of a path starts in a directory. -/
theorem start_dir (fs : Fs) (path : Bytes) {base : List Name} (h : fs.node base = some .dir) :
    fs.node (start base path) = some .dir := by
  unfold start
  split
  · exact fs.root
  · exact h

/-- A walk that ends at a missing entry ends below a directory. -/
theorem Walks.missing_below_dir {links : Nat} {dir : List Name} {ps : List Bytes}
    {followLast : Bool} (h : Walks fs followLast links dir ps q) (hdir : fs.node dir = some .dir)
    (hq : fs.node q = none) : ∃ C n, q = C ++ [n] ∧ fs.node C = some .dir := by
  induction h with
  | done =>
    rw [hdir] at hq
    cases hq
  | skip _ _ ih => exact ih hdir hq
  | up _ ih => exact ih (dropLast_dir hdir) hq
  | @missing links dir n => exact ⟨dir, n, rfl, hdir⟩
  | file hnode | last hnode =>
    rw [hnode] at hq
    cases hq
  | enter hnode _ ih => exact ih hnode hq
  | @follow links dir rest q target n _ _ _ ih => exact ih (start_dir fs target hdir) hq

/-- Where a walk goes on behind some pieces, these lead to a directory. -/
theorem Walks.dir_before {links : Nat} {dir : List Name} {ps rest : List Bytes} {followLast : Bool}
    (h : Walks fs followLast links dir (ps ++ rest) q) (hrest : rest ≠ [])
    (hdir : fs.node dir = some .dir) :
    ∃ C, Walks fs true links dir ps C ∧ fs.node C = some .dir := by
  generalize hqs : ps ++ rest = qs at h
  induction h generalizing ps with
  | done => exact absurd (List.append_eq_nil_iff.mp hqs).2 hrest
  | skip hskip _ ih =>
    cases ps with
    | nil => exact ⟨_, .done, hdir⟩
    | cons piece ps =>
      cases hqs
      obtain ⟨C, hC, hnode⟩ := ih hdir rfl
      exact ⟨C, .skip hskip hC, hnode⟩
  | up _ ih =>
    cases ps with
    | nil => exact ⟨_, .done, hdir⟩
    | cons piece ps =>
      cases hqs
      obtain ⟨C, hC, hnode⟩ := ih (dropLast_dir hdir) rfl
      exact ⟨C, .up hC, hnode⟩
  | missing | file | last =>
    cases ps with
    | nil => exact ⟨_, .done, hdir⟩
    | cons piece ps => simp [hrest] at hqs
  | enter hn _ ih =>
    cases ps with
    | nil => exact ⟨_, .done, hdir⟩
    | cons piece ps =>
      cases hqs
      obtain ⟨C, hC, hnode⟩ := ih hn rfl
      exact ⟨C, .enter hn hC, hnode⟩
  | @follow links dir _ q target n hn _ _ ih =>
    cases ps with
    | nil => exact ⟨_, .done, hdir⟩
    | cons piece ps =>
      cases hqs
      obtain ⟨C, hC, hnode⟩ := ih (start_dir fs target hdir) (List.append_assoc _ _ _)
      exact ⟨C, .follow hn (Or.inr rfl) hC, hnode⟩

/-- A file that was opened is there. -/
theorem openAppend_ok {path : Bytes} (h : fs.openAppend path = (fs', .ok q)) :
    ∃ c, fs'.node q = some (.file c) := by
  unfold openAppend at h
  split at h
  · cases h
  · next r hr =>
    split at h
    · next hnode =>
      cases h
      obtain ⟨-, -, hw⟩ := resolve_eq_ok_iff.mp hr
      obtain ⟨ns, n, rfl, hdir⟩ := hw.missing_below_dir (start_dir fs path fs.cwd_dir) hnode
      refine ⟨[], ?_⟩
      rw [node_put hdir (by rw [hnode]; simp)]
      exact if_pos rfl
    · next c hnode =>
      cases h
      exact ⟨c, hnode⟩
    · cases h
    · cases h

/-- Appending to a file adds to its content. -/
theorem node_append_file {c : Bytes} (hq : fs.node q = some (.file c)) (b : Bytes) :
    (fs.append q b).node q = some (.file (c ++ b)) := by
  rcases List.eq_nil_or_concat q with rfl | ⟨ns, n, rfl⟩
  · rw [fs.root] at hq
    cases hq
  · rw [List.concat_eq_append] at hq ⊢
    have hdir := fs.parent ns n (by rw [hq]; rfl)
    rw [append, hq]
    show (fs.put (ns ++ [n]) (.file (c ++ b))).node (ns ++ [n]) = _
    rw [node_put hdir (by rw [hq]; simp)]
    exact if_pos rfl

/-- Appending changes at most the content of a file. -/
theorem grows_append (fs : Fs) (q : List Name) (b : Bytes) : Grows fs (fs.append q b) := by
  unfold append
  split
  · next c hnode => exact grows_put (Or.inr ⟨c ++ b, rfl⟩) (Or.inr ⟨⟨c, hnode⟩, c ++ b, rfl⟩)
  · exact Grows.refl fs

end Paths

end Fs

end UnixFs
