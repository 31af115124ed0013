import HarddriveParty.Base.UnixPath
import HarddriveParty.Base.Utf8

/-!
# Remote paths

Model of the path checks of `src/peer.rs`. A path that a peer names is turned into a
relative local path of normal components only.
-/

namespace HarddriveParty

open UnixPath

/-- The message about an unsafe component. -/
def unsafeComponentMessage (path : String) : String :=
  "Remote path contains an unsafe component: " ++ path

/-- Push the components of a remote path, as long as they are normal ones. -/
def pushNormal (path : String) (relativePath : Bytes) : Component → Except String Bytes
  | .normal part => .ok (join relativePath part)
  | _ => .error (unsafeComponentMessage path)

/-- Convert a peer-provided path into a safe relative local path (`src/peer.rs:319`). -/
def safeRemoteRelativePath (path : String) : Except String Bytes :=
  (components (Utf8.encode path)).foldlM (pushNormal path) []

/-- `remote_path_is_within_request` (`src/peer.rs:335`). -/
def remotePathIsWithinRequest (requestedPath entryPath : Bytes) : Bool :=
  requestedPath.isEmpty || decide (StartsWith entryPath requestedPath)

private theorem foldlM_pushNormal (path : String) (relativePath : Bytes) (ns : List Name) :
    (ns.map fun n ↦ Component.normal n.val).foldlM (pushNormal path) relativePath =
      .ok (ns.foldl (fun q n ↦ join q n.val) relativePath) := by
  induction ns generalizing relativePath with
  | nil => rfl
  | cons n ns ih =>
    rw [List.map_cons, List.foldlM_cons, List.foldl_cons, ← ih]
    rfl

private theorem names_of_foldlM {path : String} {cs : List Component} {base relativePath : Bytes}
    (hnames : ∀ n, .normal n ∈ cs → IsName n)
    (h : cs.foldlM (pushNormal path) base = .ok relativePath) :
    ∃ ns : List Name, cs = (ns.map fun n ↦ Component.normal n.val) ∧
      relativePath = ns.foldl (fun q n ↦ join q n.val) base := by
  induction cs generalizing base with
  | nil =>
    cases h
    exact ⟨[], rfl, rfl⟩
  | cons c cs ih =>
    rw [List.foldlM_cons] at h
    cases c with
    | normal part =>
      obtain ⟨ns, rfl, hns⟩ := ih (fun n hn ↦ hnames n (by simp [hn])) h
      exact ⟨⟨part, hnames part (by simp)⟩ :: ns, rfl, hns⟩
    | rootDir | curDir | parentDir => cases h

/-- A path passes the check when all its components are normal ones; the result is the path
of their names. -/
theorem safeRemoteRelativePath_eq_ok_iff {path : String} {relativePath : Bytes} :
    safeRemoteRelativePath path = .ok relativePath ↔
      ∃ ns : List Name, components (Utf8.encode path) = (ns.map fun n ↦ Component.normal n.val) ∧
        relativePath = joinNames ns := by
  constructor
  · intro h
    obtain ⟨ns, hcs, hns⟩ := names_of_foldlM (fun n ↦ isName_of_mem_components) h
    refine ⟨ns, hcs, ?_⟩
    rw [hns, ← collect_names, collect, List.foldl_map]
    rfl
  · rintro ⟨ns, hcs, rfl⟩
    rw [safeRemoteRelativePath, hcs, foldlM_pushNormal, ← collect_names, collect, List.foldl_map]
    rfl

/-- A path of names is safe and stays as it is. -/
theorem safeRemoteRelativePath_joinNames {path : String} {ns : List Name}
    (h : Utf8.encode path = joinNames ns) : safeRemoteRelativePath path = .ok (joinNames ns) :=
  safeRemoteRelativePath_eq_ok_iff.mpr ⟨ns, by rw [h, components_joinNames], rfl⟩

/-- A path that passes the check is a path of names. -/
theorem exists_joinNames_of_safeRemoteRelativePath {path : String} {relativePath : Bytes}
    (h : safeRemoteRelativePath path = .ok relativePath) :
    ∃ ns : List Name, relativePath = joinNames ns := by
  obtain ⟨ns, -, hns⟩ := safeRemoteRelativePath_eq_ok_iff.mp h
  exact ⟨ns, hns⟩

/-- For paths of names, being within a request means to extend its names. -/
theorem remotePathIsWithinRequest_joinNames {ns ms : List Name} :
    remotePathIsWithinRequest (joinNames ms) (joinNames ns) = true ↔ ms <+: ns := by
  rw [remotePathIsWithinRequest, Bool.or_eq_true, decide_eq_true_eq, startsWith_joinNames,
    List.isEmpty_iff, joinNames_eq_nil_iff]
  constructor
  · rintro (rfl | h)
    · exact List.nil_prefix
    · exact h
  · exact Or.inr

end HarddriveParty
