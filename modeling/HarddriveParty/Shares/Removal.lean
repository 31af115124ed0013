import HarddriveParty.Base.Runs
import HarddriveParty.Shares.Refinement

/-!
# Removing any string

The request to remove a share passes its body on unchecked, and `removeShareDir` looks it up
among the recorded directories instead of the share names. It is exact for a share that has
files and for a string that is no recorded directory, and for nothing else: sub-directories
and the root are removed as if they were shares, and a share without files stays.
-/

namespace HarddriveParty

open UnixPath OrderedTree Runs

/-- An operation on the share index, with the walk that a scan makes. -/
inductive ShareOperation where
  | scan (root : String) (t : DirTree) (w : Walk t)
  | remove (shareName : String)

namespace ShareOperation

/-- The index after an operation. -/
def run (s : Shares) : ShareOperation → Shares
  | scan root _ w => (s.scan root w.items).1
  | remove shareName => (s.removeShareDir shareName).1

end ShareOperation

namespace Shares

/-- The share is gone from the three trees, nothing else is, and the root has lost the size
of the files of the share. -/
structure ShareGone (s s' : Shares) (shareName : String) : Prop where
  names : ∀ k, s'.shareNames[k]? =
    if k = Utf8.encode shareName then none else s.shareNames[k]?
  files : ∀ k, s'.files[k]? = if StartsWith k (Utf8.encode shareName) then none else s.files[k]?
  dirs : ∀ k, k ≠ [] →
    s'.dirs[k]? = if StartsWith k (Utf8.encode shareName) then none else s.dirs[k]?
  root : ∃ rootSize newSize : UInt64, s.dirs[([] : Bytes)]? = some (Bytes.leU64 rootSize) ∧
    s'.dirs[([] : Bytes)]? = some (Bytes.leU64 newSize) ∧
      newSize.toNat + sizeBelow s.files (Utf8.encode shareName) = rootSize.toNat

/-- Removing this string is exact: it succeeds exactly for a share, takes out that share
alone, changes nothing on an error, and never subtracts more than there is. -/
structure RemovesExactly (s : Shares) (shareName : String) : Prop where
  found : (s.removeShareDir shareName).2 = .ok () ↔
    (s.shareNames[Utf8.encode shareName]?).isSome
  gone : (s.removeShareDir shareName).2 = .ok () →
    s.ShareGone (s.removeShareDir shareName).1 shareName
  unchanged : ∀ e, (s.removeShareDir shareName).2 = .error e →
    (s.removeShareDir shareName).1 = s
  noUnderflow : ∀ existingSize rootSize, s.getDirSize shareName = some existingSize →
    s.getDirSize "" = some rootSize → existingSize ≤ rootSize

/-- The string is a share that has files, of a size that the recorded root size covers; or
it is neither a share nor a recorded directory. -/
def Removable (s : Shares) (shareName : String) : Prop :=
  ((s.shareNames[Utf8.encode shareName]?).isSome ∧ HasBelow s.files (Utf8.encode shareName) ∧
    ∀ rootSize, s.getDirSize "" = some rootSize →
      sizeBelow s.files (Utf8.encode shareName) ≤ rootSize.toNat) ∨
  ((s.shareNames[Utf8.encode shareName]?).isNone ∧ (s.dirs[Utf8.encode shareName]?).isNone)

end Shares

namespace ShareOperation

/-- The operation is a scan or an exact removal. -/
def Exact (s : Shares) : ShareOperation → Prop
  | scan _ _ _ => True
  | remove shareName => s.RemovesExactly shareName

/-- The operation is a scan or the removal of a removable string. -/
def Clean (s : Shares) : ShareOperation → Prop
  | scan _ _ _ => True
  | remove shareName => s.Removable shareName

end ShareOperation

namespace Consistent

variable {s : Shares} {v : View} {shareName : String}

/-- In a consistent index every recorded directory has a size. -/
theorem getDirSize_eq_none (h : Consistent s v) :
    s.getDirSize shareName = none ↔ s.dirs[Utf8.encode shareName]? = none := by
  rw [Shares.getDirSize]
  cases hd : s.dirs[Utf8.encode shareName]? with
  | none => simp
  | some b => simp [h.dirs.size _ b hd]

/-- A share is a recorded directory exactly when it has files. -/
theorem hasBelow_iff (h : Consistent s v) (hname : IsName (Utf8.encode shareName)) :
    HasBelow s.files (Utf8.encode shareName) ↔ (s.dirs[Utf8.encode shareName]?).isSome := by
  have hone : joinNames [(⟨Utf8.encode shareName, hname⟩ : Name)] = Utf8.encode shareName :=
    joinNames_singleton _
  rw [← hone]
  constructor
  · exact h.dirs.present _
  · exact h.dirs.needed _ (by simp)

/-- In a consistent index a key belongs to a share when it matches its name. -/
private theorem shareKeyMatches_iff (hname : IsName (Utf8.encode shareName)) {k : Bytes}
    (hk : ∃ ns : List Name, k = joinNames ns) :
    shareKeyMatches k shareName = true ↔ StartsWith k (Utf8.encode shareName) := by
  obtain ⟨ns, rfl⟩ := hk
  rw [shareKeyMatches_joinNames hname, startsWith_share hname]

/-- Taking out a share removes the keys below its name from a tree. -/
private theorem getElem?_removeMatching_share (hname : IsName (Utf8.encode shareName)) {t : Tree}
    {k : Bytes} (hk : t[k]?.isSome → ∃ ns : List Name, k = joinNames ns) :
    (Shares.removeMatching t shareName)[k]? =
      if StartsWith k (Utf8.encode shareName) then none else t[k]? := by
  rw [getElem?_removeMatching]
  cases ht : t[k]? with
  | none => simp
  | some b => simp only [shareKeyMatches_iff hname (hk (by rw [ht]; rfl))]

private theorem getDirSize_root {size : UInt64}
    (hroot : s.dirs[([] : Bytes)]? = some (Bytes.leU64 size)) : s.getDirSize "" = some size := by
  have hempty : Utf8.encode "" = [] := rfl
  rw [Shares.getDirSize, hempty, hroot]
  simp

/-- A share with a recorded size is taken out exactly when the root covers its size. -/
private theorem shareGone_iff (h : Consistent s v) (hname : IsName (Utf8.encode shareName))
    {existingSize : UInt64} (hget : s.getDirSize shareName = some existingSize) :
    (s.ShareGone (s.removeShareDir shareName).1 shareName ∧
      ∀ rootSize, s.getDirSize "" = some rootSize → existingSize ≤ rootSize) ↔
    ∀ rootSize, s.getDirSize "" = some rootSize →
      sizeBelow s.files (Utf8.encode shareName) ≤ rootSize.toNat := by
  obtain ⟨hexist, hroot⟩ := h.dirs.root_of_share hname hget
  have hrootSize := getDirSize_root hroot
  rw [removeShareDir_of_getDirSize hget]
  constructor
  · rintro ⟨hgone, -⟩ rootSize hsize
    obtain ⟨oldSize, newSize, hold, -, hsum⟩ := hgone.root
    rw [getDirSize_root hold] at hsize
    cases hsize
    omega
  · intro hfits
    have hle := hfits _ hrootSize
    have hexact : existingSize.toNat = sizeBelow s.files (Utf8.encode shareName) := by
      rw [hexist, UInt64.toNat_ofNat']
      exact Nat.mod_eq_of_lt (Nat.lt_of_le_of_lt hle (UInt64.toNat_lt _))
    have hcover : existingSize ≤ UInt64.ofNat (sizeBelow s.files []) := by
      rw [UInt64.le_iff_toNat_le, hexact]
      exact hle
    refine ⟨⟨fun k ↦ getElem?_erase .., fun k ↦ ?_, fun k hk ↦ ?_, ?_⟩, fun rootSize hsize ↦ ?_⟩
    · apply getElem?_removeMatching_share hname
      intro hf
      obtain ⟨ns, -, rfl⟩ := h.filesInShares k hf
      exact ⟨ns, rfl⟩
    · rw [getElem?_removeMatching_share hname]
      · rw [getElem?_update, if_neg hk]
      · rw [getElem?_update, if_neg hk]
        exact h.dirs.keys k
    · refine ⟨_, UInt64.ofNat (sizeBelow s.files []) - existingSize, hroot, ?_, ?_⟩
      · have hkeep : ¬ shareKeyMatches [] shareName = true := by
          rw [← joinNames_nil, shareKeyMatches_joinNames hname]
          simp
        rw [getElem?_removeMatching, if_neg hkeep, getElem?_update, if_pos rfl, hroot]
        simp [Shares.rootSizeWithout]
      · rw [UInt64.toNat_sub_of_le _ _ hcover, hexact]
        exact Nat.sub_add_cancel hle
    · rw [hrootSize] at hsize
      cases hsize
      exact hcover

/-- In a consistent index a removal is exact exactly for the removable strings. -/
theorem removesExactly_iff (h : Consistent s v) :
    s.RemovesExactly shareName ↔ s.Removable shareName := by
  cases hget : s.getDirSize shareName with
  | none =>
    have hdir := h.getDirSize_eq_none.mp hget
    have hrun := removeShareDir_of_none hget
    constructor
    · intro hexact
      have hfound := hexact.found
      rw [hrun] at hfound
      right
      rw [hdir]
      cases hshare : s.shareNames[Utf8.encode shareName]? with
      | none => exact ⟨rfl, rfl⟩
      | some path =>
        rw [hshare] at hfound
        cases hfound.mpr rfl
    · rintro (⟨hshare, hbelow, -⟩ | ⟨hshare, -⟩)
      · rw [h.hasBelow_iff (h.isName_key hshare), hdir] at hbelow
        cases hbelow
      · refine ⟨?_, ?_, fun e _ ↦ by rw [hrun], fun existingSize _ he _ ↦ ?_⟩
        · rw [hrun, Option.isNone_iff_eq_none.mp hshare]
          simp
        · rw [hrun]
          intro hok
          cases hok
        · rw [hget] at he
          cases he
  | some existingSize =>
    have hdir : (s.dirs[Utf8.encode shareName]?).isSome := by
      rw [Option.isSome_iff_ne_none]
      intro hnone
      rw [h.getDirSize_eq_none.mpr hnone] at hget
      cases hget
    have hok : (s.removeShareDir shareName).2 = .ok () := by
      rw [removeShareDir_of_getDirSize hget]
    constructor
    · intro hexact
      have hshare := hexact.found.mp hok
      have hname := h.isName_key hshare
      refine Or.inl ⟨hshare, (h.hasBelow_iff hname).mpr hdir, ?_⟩
      exact (h.shareGone_iff hname hget).mp
        ⟨hexact.gone hok, fun rootSize hr ↦ hexact.noUnderflow _ _ hget hr⟩
    · rintro (⟨hshare, -, hfits⟩ | ⟨-, hnone⟩)
      · obtain ⟨hgone, hcover⟩ := (h.shareGone_iff (h.isName_key hshare) hget).mpr hfits
        refine ⟨iff_of_true hok hshare, fun _ ↦ hgone, fun e he ↦ ?_, fun _ rootSize he hr ↦ ?_⟩
        · rw [hok] at he
          cases he
        · rw [hget] at he
          cases he
          exact hcover rootSize hr
      · rw [Option.isNone_iff_eq_none.mp hnone] at hdir
        cases hdir

end Consistent

/-- Along every run of scans and removals of any strings, all removals are exact exactly when
all removed strings are removable. -/
theorem removal_exact_iff (ops : List ShareOperation) :
    EachStep ShareOperation.run (fun s op ↦ op.Exact s) Shares.empty ops ↔
      EachStep ShareOperation.run (fun s op ↦ op.Clean s) Shares.empty ops := by
  apply eachStep_iff (I := fun s ↦ ∃ v, Consistent s v) (A := fun _ _ ↦ True)
  · exact ⟨_, Consistent.empty⟩
  · exact eachStep_of_forall fun _ _ ↦ trivial
  · rintro s op ⟨v, h⟩ -
    cases op with
    | scan root t w => exact Iff.rfl
    | remove shareName => exact h.removesExactly_iff
  · rintro s op ⟨v, h⟩ - hexact
    cases op with
    | scan root t w => exact ⟨_, h.scan root w⟩
    | remove shareName =>
      cases hrun : (s.removeShareDir shareName).2 with
      | ok u => exact ⟨_, h.remove (hexact.found.mp hrun)⟩
      | error e =>
        refine ⟨v, ?_⟩
        show Consistent (s.removeShareDir shareName).1 v
        rw [hexact.unchanged e hrun]
        exact h

/-- A directory `sub` that holds the file `one.txt`. -/
def DirTree.withSub : DirTree where
  entries := [([⟨Utf8.encode "sub", by decide⟩], ⟨true, 0⟩),
    ([⟨Utf8.encode "sub", by decide⟩, oneTxt], ⟨false, 3⟩)]
  nodup := by decide
  ne_nil := by decide
  closed := by decide

/-- Its walk, which reports the file only. -/
def Walk.withSub : Walk DirTree.withSub where
  items := [.entry [⟨Utf8.encode "sub", by decide⟩, oneTxt] (.ok ⟨false, 3⟩) (.ok ())]
  fromTree := by decide
  once := by decide

/-- A share with a sub-directory, and the request to remove the sub-directory. -/
def removeSub : List ShareOperation :=
  [.scan "/a/foo" DirTree.withSub Walk.withSub, .remove "foo/sub"]

/-- The request succeeds although the sub-directory is no share. -/
theorem removal_of_sub_not_exact :
    ¬ EachStep ShareOperation.run (fun s op ↦ op.Exact s) Shares.empty removeSub := by
  rintro ⟨-, hexact, -⟩
  have hok : ((ShareOperation.run Shares.empty
      (.scan "/a/foo" DirTree.withSub Walk.withSub)).removeShareDir "foo/sub").2 = .ok () := by
    decide
  have hshare : ((ShareOperation.run Shares.empty
      (.scan "/a/foo" DirTree.withSub Walk.withSub)).shareNames[Utf8.encode "foo/sub"]?).isSome =
        false := by decide
  exact absurd (hexact.found.mp hok) (by rw [hshare]; decide)

end HarddriveParty
