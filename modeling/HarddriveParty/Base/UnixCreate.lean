import HarddriveParty.Base.UnixWalk
import Mathlib.Logic.Relation

/-!
# Which entries the calls add

Library module. Creating directories and opening files changes no entry that exists; the
entries that appear are directories at the path or its parents, or the opened file. Creating a
path that could not be created fails again, and changes nothing more.
-/

namespace UnixFs

open UnixPath

namespace Fs

variable {fs fs' : Fs} {q : List Name}

section Walks

variable {followLast : Bool} {links : Nat} {dir : List Name} {ps : List Bytes}

private theorem walks_empty {es : List Bytes} (h : ∀ e ∈ es, e = []) :
    Walks fs followLast links dir es dir := by
  induction es with
  | nil => exact .done
  | cons e es ih => exact .skip (Or.inl (h e (by simp))) (ih fun e he ↦ h e (by simp [he]))

/-- Once a directory stands where a walk ends, the walk enters it. -/
theorem Walks.enter_created (h : Walks fs false links dir ps q) (hg : Grows fs fs')
    (hq : fs'.node q = some .dir) (es : List Bytes) (hes : ∀ e ∈ es, e = []) :
    Walks fs' true links dir (ps ++ es) q := by
  induction h with
  | done => exact walks_empty hes
  | skip hskip _ ih => exact .skip hskip (ih hq)
  | up _ ih => exact .up (ih hq)
  | missing hnode => exact .enter hq (walks_empty hes)
  | file hnode =>
    obtain ⟨c, hc⟩ := hg.file _ _ hnode
    rw [hc] at hq
    cases hq
  | last hnode =>
    rw [(hg.symlink _ _).mpr hnode] at hq
    cases hq
  | enter hnode _ ih => exact .enter (hg.dir _ hnode) (ih hq)
  | follow hnode _ _ ih =>
    have hrest := ih hq
    rw [List.append_assoc] at hrest
    exact .follow ((hg.symlink _ _).mpr hnode) (Or.inr rfl) hrest

end Walks

section Add

/-- Every entry that was there is unchanged, and the new ones satisfy a property. -/
structure Adds (P : List Name → Prop) (fs fs' : Fs) : Prop where
  grows : Grows fs fs'
  added : ∀ q, fs'.node q ≠ fs.node q → fs.node q = none ∧ P q

variable {P Q : List Name → Prop}

/-- Nothing was added. -/
theorem Adds.refl (P : List Name → Prop) (fs : Fs) : Adds P fs fs :=
  ⟨Grows.refl fs, fun _ h ↦ absurd rfl h⟩

/-- What was there stays as it was. -/
theorem Adds.kept {fs fs' : Fs} (h : Adds P fs fs') {q : List Name} {x : Node}
    (hx : fs.node q = some x) : fs'.node q = some x := by
  by_contra hchange
  rw [← hx] at hchange
  have hnone := (h.added q hchange).1
  rw [hx] at hnone
  cases hnone

/-- The entries of two calls. -/
theorem Adds.trans {fs₁ fs₂ fs₃ : Fs} (h : Adds P fs₁ fs₂) (h' : Adds P fs₂ fs₃) :
    Adds P fs₁ fs₃ where
  grows := h.grows.trans h'.grows
  added := by
    intro q hq
    by_cases hq' : fs₂.node q = fs₁.node q
    · rw [← hq'] at hq ⊢
      exact h'.added q hq
    · exact h.added q hq'

/-- A weaker property of the new entries. -/
theorem Adds.mono (h : Adds P fs fs') (hPQ : ∀ q, P q → Q q) : Adds Q fs fs' :=
  ⟨h.grows, fun q hq ↦ ⟨(h.added q hq).1, hPQ q (h.added q hq).2⟩⟩

/-- Putting a node at a missing entry of a directory adds this entry. -/
theorem adds_put {C : List Name} {n : Name} (hC : fs.node C = some .dir)
    (hn : fs.node (C ++ [n]) = none) (x : Node) (hg : Grows fs (fs.put (C ++ [n]) x)) :
    Adds (· = C ++ [n]) fs (fs.put (C ++ [n]) x) := by
  refine ⟨hg, fun r hr ↦ ?_⟩
  rw [node_put hC (by simp [hn])] at hr
  by_cases hrq : r = C ++ [n]
  · exact ⟨by rw [hrq, hn], hrq⟩
  · rw [if_neg hrq] at hr
    exact absurd rfl hr

end Add

section Extend

/-- Every file keeps its bytes at the beginning, every directory and link stays, and what is new
or longer satisfies a property. -/
structure Extends (P : List Name → Prop) (fs fs' : Fs) : Prop where
  grows : Grows fs fs'
  content : ∀ q, fs.content q <+: fs'.content q
  changed : ∀ q, fs'.node q ≠ fs.node q → P q

variable {P Q : List Name → Prop}

/-- Nothing was written. -/
theorem Extends.refl (P : List Name → Prop) (fs : Fs) : Extends P fs fs :=
  ⟨Grows.refl fs, fun _ ↦ List.prefix_rfl, fun _ h ↦ absurd rfl h⟩

/-- What one call wrote stays under the next one. -/
theorem Extends.trans {fs₁ fs₂ fs₃ : Fs} (h : Extends P fs₁ fs₂) (h' : Extends Q fs₂ fs₃)
    (hPQ : ∀ q, P q → Q q) : Extends Q fs₁ fs₃ where
  grows := h.grows.trans h'.grows
  content := fun q ↦ (h.content q).trans (h'.content q)
  changed := fun q hq ↦ by
    by_cases hsame : fs₃.node q = fs₂.node q
    · rw [hsame] at hq
      exact hPQ q (h.changed q hq)
    · exact h'.changed q hsame

/-- New entries leave the files as they are. -/
theorem Adds.extends (h : Adds P fs fs') : Extends P fs fs' where
  grows := h.grows
  content := fun q ↦ by
    cases hq : fs.node q with
    | none =>
      rw [content, hq]
      exact List.nil_prefix
    | some x =>
      rw [content, content, hq, h.kept hq]
  changed := fun q hq ↦ (h.added q hq).2

/-- What a path of a file reads. -/
theorem read_eq_ok_iff {path c : Bytes} :
    fs.read path = .ok c ↔ ∃ q, fs.resolve true path = .ok q ∧ fs.node q = some (.file c) := by
  cases hr : fs.resolve true path with
  | error e =>
    have hmeta : fs.metadata path = .error e := by rw [metadata, hr]; rfl
    simp [Fs.read, hmeta]
  | ok q =>
    have hmeta : fs.metadata path = fs.nodeAt q := by rw [metadata, hr]; rfl
    simp only [Fs.read, hmeta, nodeAt, Except.ok.injEq, exists_eq_left']
    cases hnode : fs.node q with
    | none => simp
    | some x => cases x <;> simp

/-- A file that can be read can still be read under its path, and begins with the same bytes. -/
theorem Extends.read (h : Extends P fs fs') {path c : Bytes} (hread : fs.read path = .ok c) :
    ∃ c', fs'.read path = .ok c' ∧ c <+: c' := by
  obtain ⟨q, hr, hnode⟩ := read_eq_ok_iff.mp hread
  obtain ⟨c', hc'⟩ := h.grows.file q c hnode
  refine ⟨c', read_eq_ok_iff.mpr ⟨q, resolve_grows hr h.grows, hc'⟩, ?_⟩
  have hlead := h.content q
  rwa [Fs.content, Fs.content, hnode, hc'] at hlead

/-- New entries do not change what a path of a file reads. -/
theorem Adds.read (h : Adds P fs fs') {path c : Bytes} (hread : fs.read path = .ok c) :
    fs'.read path = .ok c := by
  obtain ⟨q, hr, hnode⟩ := read_eq_ok_iff.mp hread
  exact read_eq_ok_iff.mpr ⟨q, resolve_grows hr h.grows, h.kept hnode⟩

/-- The bytes of a file, and those that were appended to it. -/
theorem content_append {c : Bytes} (hq : fs.node q = some (.file c)) (b : Bytes) :
    (fs.append q b).content q = fs.content q ++ b := by
  rw [content, content, node_append_file hq b, hq]

/-- Appending makes one file longer. -/
theorem extends_append {c : Bytes} (hq : fs.node q = some (.file c)) (b : Bytes) :
    Extends (· = q) fs (fs.append q b) := by
  have hother {r : List Name} (hr : r ≠ q) : (fs.append q b).node r = fs.node r := by
    rcases List.eq_nil_or_concat q with rfl | ⟨ns, n, rfl⟩
    · rw [fs.root] at hq
      cases hq
    · rw [List.concat_eq_append] at hq hr ⊢
      have hdir := fs.parent ns n (by rw [hq]; rfl)
      rw [append, hq]
      show (fs.put (ns ++ [n]) (.file (c ++ b))).node r = _
      rw [node_put hdir (by rw [hq]; simp), if_neg hr]
  refine ⟨grows_append fs q b, fun r ↦ ?_, fun r hr ↦ ?_⟩
  · by_cases hr : r = q
    · rw [hr, content_append hq]
      exact List.prefix_append _ _
    · rw [content, content, hother hr]
  · by_contra hne
    exact hr (hother hne)

end Extend

/-- `p` is the path or one of its parents. -/
def AtOrAbove (path p : Bytes) : Prop :=
  Relation.ReflTransGen (fun a b ↦ UnixPath.parent a = some b) path p

/-- The entry is a directory to which the path or one of its parents leads. -/
def LedToAbove (fs : Fs) (path : Bytes) (q : List Name) : Prop :=
  ∃ p, AtOrAbove path p ∧ fs.Leads p q

/-- Added entries do not change where the parents of a path lead. -/
theorem LedToAbove.grows {path : Bytes} (h : LedToAbove fs path q) (hg : Grows fs fs') :
    LedToAbove fs' path q := by
  obtain ⟨p, hp, hl⟩ := h
  exact ⟨p, hp, hl.grows hg⟩

section Create

/-- The pieces of a path without the separators at its end. -/
abbrev trimmed (path : Bytes) : List Bytes :=
  (pieces path).rdropWhile fun piece ↦ decide (piece = [])

/-- Creating a directory fails and changes nothing, or adds the directory of the path. -/
theorem createDir_cases (fs : Fs) (path : Bytes) :
    (∃ e, fs.createDir path = (fs, .error e)) ∨
      ∃ fs' C, fs.createDir path = (fs', .ok ()) ∧
        Walks fs false maxLinks (start fs.cwd path) (trimmed path) C ∧ fs'.Leads path C ∧
          Adds (fs'.Leads path) fs fs' := by
  have hgrows := grows_createDir fs path
  unfold createDir at hgrows ⊢
  split
  · exact Or.inl ⟨_, rfl⟩
  · next hpath =>
    split
    · exact Or.inl ⟨_, rfl⟩
    · next hnul =>
      rw [if_neg hpath, if_neg hnul] at hgrows
      split
      · exact Or.inl ⟨_, rfl⟩
      · next q hwalk =>
        rw [hwalk] at hgrows
        split
        · exact Or.inl ⟨_, rfl⟩
        · next hnode =>
          simp only [hnode] at hgrows
          right
          have hw := walks_iff.mpr hwalk
          obtain ⟨C, n, rfl, hC⟩ :=
            hw.missing_below_dir (start_dir fs path fs.cwd_dir) hnode
          have hself : (fs.put (C ++ [n]) .dir).node (C ++ [n]) = some .dir := by
            rw [node_put hC (by simp [hnode])]
            exact if_pos rfl
          have hleads : (fs.put (C ++ [n]) .dir).Leads path (C ++ [n]) := by
            refine ⟨resolve_eq_ok_iff.mpr ⟨hpath, hnul, ?_⟩, hself⟩
            have hend := hw.enter_created hgrows hself
              ((pieces path).rtakeWhile fun piece ↦ decide (piece = [])) (by
                intro e he
                simpa using List.mem_rtakeWhile_imp he)
            rwa [List.rdropWhile_append_rtakeWhile, ← cwd_put (C ++ [n]) Node.dir] at hend
          refine ⟨fs.put (C ++ [n]) .dir, C ++ [n], rfl, hw, hleads,
            (adds_put hC hnode .dir hgrows).mono ?_⟩
          intro q hq
          rwa [hq]

/-- A directory at a parent of the parent is one at a parent. -/
theorem LedToAbove.of_parent {path parent : Bytes} (hp : UnixPath.parent path = some parent)
    (h : LedToAbove fs parent q) : LedToAbove fs path q := by
  obtain ⟨p, hrel, hl⟩ := h
  exact ⟨p, Relation.ReflTransGen.head hp hrel, hl⟩

private theorem adds_createDir (fs : Fs) (path : Bytes) :
    Adds (LedToAbove (fs.createDir path).1 path) fs (fs.createDir path).1 := by
  rcases createDir_cases fs path with ⟨e, he⟩ | ⟨fs', _, hrun, -, -, hadds⟩
  · rw [he]
    exact Adds.refl _ fs
  · rw [hrun]
    exact hadds.mono fun q hq ↦ ⟨path, Relation.ReflTransGen.refl, hq⟩

private theorem adds_createDirAllWithin (fuel : Nat) (fs : Fs) (path : Bytes) :
    Adds (LedToAbove (createDirAllWithin fuel fs path).1 path) fs
      (createDirAllWithin fuel fs path).1 := by
  induction fuel generalizing fs path with
  | zero => exact Adds.refl _ fs
  | succ fuel ih =>
    rw [createDirAllWithin]
    split
    · exact Adds.refl _ fs
    · have hcreate := adds_createDir fs path
      split
      · next hrun => rwa [hrun] at hcreate
      · next fs₁ hrun =>
        rw [hrun] at hcreate
        split
        · exact hcreate
        · next parent hparent =>
          have habove := ih fs₁ parent
          split
          · next fs₂ e hrun₁ =>
            rw [hrun₁] at habove
            have hfirst := hcreate.mono fun q hq ↦ hq.grows habove.grows
            exact hfirst.trans (habove.mono fun q hq ↦ hq.of_parent hparent)
          · next fs₂ hrun₁ =>
            rw [hrun₁] at habove
            have hfirst := hcreate.mono fun q hq ↦ hq.grows habove.grows
            have hboth := hfirst.trans (habove.mono fun q hq ↦ hq.of_parent hparent)
            have hagain := adds_createDir fs₂ path
            have hall := (hboth.mono fun q hq ↦ hq.grows hagain.grows).trans hagain
            split
            · next hrun₂ => rwa [hrun₂] at hall
            · next hrun₂ =>
              rw [hrun₂] at hall
              split <;> exact hall
      · next hrun =>
        rw [hrun] at hcreate
        split <;> exact hcreate

/-- Creating a path adds directories to which the path or its parents lead. -/
theorem adds_createDirAll (fs : Fs) (path : Bytes) :
    Adds (LedToAbove (fs.createDirAll path).1 path) fs (fs.createDirAll path).1 :=
  adds_createDirAllWithin _ _ _

/-- A path whose own node is a directory leads to it. -/
theorem exists_leads_of_symlinkMetadata {path : Bytes} (h : fs.symlinkMetadata path = .ok .dir) :
    ∃ C, Leads fs path C := by
  obtain ⟨C, hr, hC⟩ := symlinkMetadata_eq_ok_iff.mp h
  obtain ⟨hpath, hnul, hw⟩ := resolve_eq_ok_iff.mp hr
  have hend := hw.enter_created (Grows.refl fs) hC [] (by simp)
  rw [List.append_nil] at hend
  exact ⟨C, resolve_eq_ok_iff.mpr ⟨hpath, hnul, hend⟩, hC⟩

end Create

section Again

variable {links : Nat} {dir : List Name} {ps : List Bytes}

/-- Separators at the end of a path that leads somewhere may be left out. -/
private theorem Walks.drop_empties {es : List Bytes} (hes : ∀ e ∈ es, e = [])
    (h : Walks fs true links dir (ps ++ es) q) : Walks fs true links dir ps q := by
  induction es using List.reverseRecOn with
  | nil => rwa [List.append_nil] at h
  | append_singleton es e ih =>
    rw [hes e (by simp), ← List.append_assoc] at h
    exact ih (fun e he ↦ hes e (by simp [he])) h.drop_empty

/-- A path leads to a directory. -/
theorem isDir_iff {path : Bytes} : fs.isDir path = true ↔ ∃ C, Leads fs path C := by
  rw [isDir, decide_eq_true_eq]
  constructor
  · exact exists_leads_of_metadata
  · rintro ⟨C, hC⟩
    rw [metadata, hC.1]
    exact nodeAt_eq_ok_iff.mpr hC.2

/-- What leads to a directory does so without the separators at its end. -/
private theorem walks_trimmed {path : Bytes} (h : fs.isDir path = true) :
    path ≠ [] ∧ 0 ∉ path ∧ ∃ r x, Walks fs false maxLinks (start fs.cwd path) (trimmed path) r ∧
      fs.node r = some x := by
  obtain ⟨C, hC⟩ := isDir_iff.mp h
  obtain ⟨hpath, hnul, hw⟩ := resolve_eq_ok_iff.mp hC.1
  rw [← @List.rdropWhile_append_rtakeWhile _ (fun piece ↦ decide (piece = [])) (pieces path)] at hw
  obtain ⟨r, hr, hend⟩ := (hw.drop_empties fun e he ↦ by
    simpa using List.mem_rtakeWhile_imp he).stop_at_link
  refine ⟨hpath, hnul, r, ?_⟩
  rcases hend with rfl | ⟨target, ht⟩
  · exact ⟨.dir, hr, hC.2⟩
  · exact ⟨.symlink target, hr, ht⟩

/-- A directory is not created a second time. -/
theorem createDir_of_isDir {path : Bytes} (h : fs.isDir path = true) :
    fs.createDir path = (fs, .error .alreadyExists) := by
  obtain ⟨hpath, hnul, r, x, hr, hx⟩ := walks_trimmed h
  rw [createDir, if_neg hpath, if_neg hnul, walks_iff.mp hr]
  simp only [hx]

private theorem isDir_parent_of_walks {path p : Bytes} (hparent : UnixPath.parent path = some p)
    (hp : p ≠ []) (hnul : 0 ∉ path)
    (hw : Walks fs false maxLinks (start fs.cwd path) (trimmed path) q) : fs.isDir p = true := by
  obtain ⟨ps, rest, hpieces, hparents, piece, hpiece, hne⟩ := pieces_parent hparent hp
  have hlead := parent_prefix hparent
  have hstart : start fs.cwd p = start fs.cwd path := by
    obtain ⟨rest, rfl⟩ := hlead
    obtain ⟨b, p, rfl⟩ := List.exists_cons_of_ne_nil hp
    rfl
  have hrest : rest.rdropWhile (fun piece ↦ decide (piece = [])) ≠ [] := by
    rw [ne_eq, List.rdropWhile_eq_nil_iff]
    intro hall
    exact hne (by simpa using hall piece hpiece)
  have htrimmed : trimmed path = ps ++ rest.rdropWhile fun piece ↦ decide (piece = []) := by
    rw [trimmed, hpieces, List.rdropWhile, List.reverse_append, List.dropWhile_append, if_neg,
      List.reverse_append, List.reverse_reverse, List.rdropWhile]
    simpa [List.rdropWhile] using hrest
  rw [htrimmed] at hw
  obtain ⟨C, hC, hnode⟩ := hw.dir_before hrest (start_dir fs path fs.cwd_dir)
  refine isDir_iff.mpr ⟨C, resolve_eq_ok_iff.mpr ⟨hp, fun h ↦ hnul (hlead.subset h), ?_⟩, hnode⟩
  rw [hstart]
  rcases hparents with h | h
  · rwa [h]
  · rw [h]
    obtain ⟨links', hsame⟩ := hC.append_eq hnode (List.cons_ne_nil [] []) true
    rw [walks_iff, hsame]
    exact walks_iff.mp (.skip (Or.inl rfl) .done)

/-- Creating all directories of the path of a directory changes nothing. -/
private theorem createDirAllWithin_of_isDir (fuel : Nat) {path : Bytes}
    (h : fs.isDir path = true) : createDirAllWithin (fuel + 1) fs path = (fs, .ok ()) := by
  have hpath := (walks_trimmed h).1
  rw [createDirAllWithin, if_neg hpath, createDir_of_isDir h]
  exact if_pos h

private theorem createDirAllWithin_nil (fuel : Nat) (fs : Fs) :
    (createDirAllWithin fuel fs []).1 = fs := by
  cases fuel <;> rfl

/-- Where all directories were created the path leads to a directory. -/
private theorem createDirAllWithin_ok {fuel : Nat} {path : Bytes} (hpath : path ≠ [])
    (h : createDirAllWithin fuel fs path = (fs', .ok ())) : fs'.isDir path = true := by
  have hcreated : ∀ {fs fs' : Fs}, fs.createDir path = (fs', .ok ()) → fs'.isDir path = true := by
    intro fs fs' h
    rcases createDir_cases fs path with ⟨e, he⟩ | ⟨fs₁, C, hrun, -, hleads, -⟩
    · rw [he] at h
      cases h
    · rw [hrun] at h
      cases h
      exact isDir_iff.mpr ⟨C, hleads⟩
  cases fuel with
  | zero => cases h
  | succ fuel =>
    rw [createDirAllWithin, if_neg hpath] at h
    split at h
    · next hrun =>
      cases h
      exact hcreated hrun
    · split at h
      · cases h
      · split at h
        · cases h
        · split at h
          · next hrun =>
            cases h
            exact hcreated hrun
          · split at h
            · next hdir =>
              cases h
              exact hdir
            · cases h
    · split at h
      · next hdir =>
        cases h
        exact hdir
      · cases h

/-- What a failed call has changed, it has changed at the parent of the path. -/
private theorem createDirAllWithin_error {fuel : Nat} {path : Bytes} {e : ErrorKind}
    (hpath : path ≠ []) (h : createDirAllWithin (fuel + 1) fs path = (fs', .error e)) :
    fs' = fs ∨ ∃ p, UnixPath.parent path = some p ∧
      (createDirAllWithin fuel fs p = (fs', .error e) ∨
        createDirAllWithin fuel fs p = (fs', .ok ()) ∧
          fs'.createDir path = (fs', .error e) ∧ fs'.isDir path = false) := by
  rw [createDirAllWithin, if_neg hpath] at h
  rcases createDir_cases fs path with ⟨e₁, he₁⟩ | ⟨fs₁, C, hrun, -⟩
  · rw [he₁] at h
    split at h
    · next hrun => cases hrun
    · next hrun =>
      cases hrun
      split at h
      · cases h
        exact Or.inl rfl
      · next p hp =>
        right
        refine ⟨p, hp, ?_⟩
        split at h
        · next hrun =>
          cases h
          exact Or.inl hrun
        · next fs₂ hrun =>
          rcases createDir_cases fs₂ path with ⟨e₂, he₂⟩ | ⟨fs₃, C, hrun₂, -⟩
          · rw [he₂] at h
            simp only at h
            split at h
            · cases h
            · next hdir =>
              cases h
              exact Or.inr ⟨hrun, he₂, by simpa using hdir⟩
          · rw [hrun₂] at h
            cases h
    · split at h
      · cases h
      · next hrun _ =>
        cases hrun
        cases h
        exact Or.inl rfl
  · rw [hrun] at h
    cases h

/-- Where a path leads to no directory and none can be created, and nothing is missing above it,
the call fails and changes nothing. -/
private theorem createDirAllWithin_fails {fuel : Nat} {path p : Bytes} {e : ErrorKind}
    (hpath : path ≠ []) (hcreate : fs.createDir path = (fs, .error e))
    (hdir : fs.isDir path = false) (hparent : UnixPath.parent path = some p)
    (hsame : (createDirAllWithin fuel fs p).1 = fs) :
    ∃ e', createDirAllWithin (fuel + 1) fs path = (fs, .error e') := by
  have hnot : ¬ fs.isDir path = true := by simp [hdir]
  rw [createDirAllWithin, if_neg hpath, hcreate]
  split
  · next hrun => cases hrun
  · next hrun =>
    cases hrun
    cases hp : createDirAllWithin fuel fs p with
    | mk fs₁ result =>
      rw [hp] at hsame
      simp only at hsame
      subst hsame
      simp only [hparent, hp]
      cases result with
      | error e' => exact ⟨e', rfl⟩
      | ok u =>
        simp only [hcreate, if_neg hnot]
        exact ⟨_, rfl⟩
  · next hrun =>
    cases hrun
    exact ⟨_, if_neg hnot⟩

/-- Where creating the directories of a path has failed, doing so again fails and changes
nothing: the first call has left things as they were, or the path leads to no directory. -/
private theorem createDirAllWithin_again {fuel : Nat} {path : Bytes} {e : ErrorKind}
    (h : createDirAllWithin fuel fs path = (fs', .error e)) :
    (fs' = fs ∨ fs'.isDir path = false) ∧
      ∃ e', createDirAllWithin fuel fs' path = (fs', .error e') := by
  induction fuel generalizing fs fs' path e with
  | zero =>
    cases h
    exact ⟨Or.inl rfl, _, rfl⟩
  | succ fuel ih =>
    -- a call that has changed nothing goes the same way again
    by_cases hsame : fs' = fs
    · subst hsame
      exact ⟨Or.inl rfl, e, h⟩
    have hpath : path ≠ [] := by
      rintro rfl
      exact hsame (by rw [← createDirAllWithin_nil (fuel + 1) fs, h])
    obtain ⟨p, hparent, hcases⟩ := (createDirAllWithin_error hpath h).resolve_left hsame
    rcases hcases with hp | ⟨hp, hcreate, hdir⟩
    · obtain ⟨hbelow, e', hagain⟩ := ih hp
      have hpdir := hbelow.resolve_left hsame
      have hpne : p ≠ [] := by
        rintro rfl
        exact hsame (by rw [← createDirAllWithin_nil fuel fs, hp])
      have hnoWalk : ∀ q, 0 ∉ path →
          ¬ Walks fs' false maxLinks (start fs'.cwd path) (trimmed path) q := by
        intro q hnul hw
        rw [isDir_parent_of_walks hparent hpne hnul hw] at hpdir
        cases hpdir
      have hdir : fs'.isDir path = false := by
        rw [← Bool.not_eq_true]
        intro hdir
        obtain ⟨-, hnul, r, x, hr, -⟩ := walks_trimmed hdir
        exact hnoWalk r hnul hr
      refine ⟨Or.inr hdir, ?_⟩
      rcases createDir_cases fs' path with ⟨e₂, he₂⟩ | ⟨fs₁, C, -, hw, hleads, -⟩
      · exact createDirAllWithin_fails hpath he₂ hdir hparent (by rw [hagain])
      · exact absurd hw (hnoWalk C (resolve_eq_ok_iff.mp hleads.1).2.1)
    · refine ⟨Or.inr hdir, createDirAllWithin_fails hpath hcreate hdir hparent ?_⟩
      by_cases hpne : p = []
      · rw [hpne, createDirAllWithin_nil]
      · cases fuel with
        | zero => cases hp
        | succ fuel => rw [createDirAllWithin_of_isDir fuel (createDirAllWithin_ok hpne hp)]

/-- Where a path was created it leads to a directory. -/
theorem createDirAll_ok {path : Bytes} (hpath : path ≠ [])
    (h : fs.createDirAll path = (fs', .ok ())) : fs'.isDir path = true :=
  createDirAllWithin_ok hpath h

/-- Where creating a path has failed, doing so again fails and changes nothing. -/
theorem createDirAll_again {path : Bytes} {e : ErrorKind}
    (h : fs.createDirAll path = (fs', .error e)) :
    (fs' = fs ∨ fs'.isDir path = false) ∧ ∃ e', fs'.createDirAll path = (fs', .error e') :=
  createDirAllWithin_again h

end Again

end Fs

end UnixFs
