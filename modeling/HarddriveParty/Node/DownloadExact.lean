import HarddriveParty.Node.Download
import HarddriveParty.Shares.QueryExact
import HarddriveParty.Wishlist.Indexes

/-!
# What a download request records

The answer to a query starts with the queried path itself, apart from siblings that the
component check leaves out. So the request is recorded before its files, and the wishlist
then holds exactly the files of the requested subtree.
-/

namespace HarddriveParty

open UnixPath OrderedTree RequestedFile

namespace SharedState

section Loop

variable {requestedPath : Bytes} {path : String} {peerPublicKey : PublicKey} {id : UInt32}
  {now : Nat → UInt64}

private theorem handleEntries_append (n : Nat) (w : WishList) (a b : List Entry) :
    handleEntries requestedPath path peerPublicKey id now n w (a ++ b) =
      handleEntries requestedPath path peerPublicKey id now (n + a.length)
        (handleEntries requestedPath path peerPublicKey id now n w a) b := by
  induction a generalizing n w with
  | nil => rfl
  | cons e a ih =>
    rw [List.cons_append, handleEntries, ih, handleEntries, List.length_cons, Nat.add_right_comm,
      Nat.add_assoc]

/-- An answer without errors is handled entry by entry. -/
theorem handleResponses_ok (n : Nat) (w : WishList) (responses : List LsResponse) :
    handleResponses requestedPath path peerPublicKey id now n w (responses.map .ok) =
      handleEntries requestedPath path peerPublicKey id now n w
        (responses.flatMap LsResponse.entries) := by
  induction responses generalizing n w with
  | nil => rfl
  | cons response rest ih =>
    rw [List.map_cons, handleResponses, ih, List.flatMap_cons, handleEntries_append]

/-- Record one file of a request. -/
def recordFile (id : UInt32) (w : WishList) (e : Entry) : WishList :=
  (w.addRequestedFile ⟨e.name, e.size, id, false⟩).1

/-- The names of an entry lie within those of the request. -/
def Inside (ms : List Name) (e : Entry) : Prop :=
  ∃ ns, Utf8.encode e.name = joinNames ns ∧ ms <+: ns

variable {ms : List Name}

private theorem handleEntry_outside {nowSecs : UInt64} {w : WishList} {e : Entry}
    (hplain : ∃ ns, Utf8.encode e.name = joinNames ns) (h : ¬ Inside ms e) :
    handleEntry (joinNames ms) path peerPublicKey id nowSecs w e = w := by
  obtain ⟨ns, hns⟩ := hplain
  have hout : ¬ remotePathIsWithinRequest (joinNames ms) (joinNames ns) = true := by
    rw [remotePathIsWithinRequest_joinNames]
    exact fun hp ↦ h ⟨ns, hns, hp⟩
  rw [handleEntry, safeRemoteRelativePath_joinNames hns]
  simp only [if_neg hout]

private theorem handleEntry_inside {nowSecs : UInt64} {w : WishList} {e : Entry}
    (h : Inside ms e) :
    handleEntry (joinNames ms) path peerPublicKey id nowSecs w e =
      let w := if e.name = path then
          w.addRequest (.create nowSecs e.name e.size id peerPublicKey e.isDir)
        else w
      if e.isDir then w else recordFile id w e := by
  obtain ⟨ns, hns, hp⟩ := h
  rw [handleEntry, safeRemoteRelativePath_joinNames hns]
  simp only [if_pos (remotePathIsWithinRequest_joinNames.mpr hp), recordFile]

private theorem handleEntries_outside {n : Nat} {w : WishList} {entries : List Entry}
    (hplain : ∀ e ∈ entries, ∃ ns, Utf8.encode e.name = joinNames ns)
    (h : ∀ e ∈ entries, ¬ Inside ms e) :
    handleEntries (joinNames ms) path peerPublicKey id now n w entries = w := by
  induction entries generalizing n with
  | nil => rfl
  | cons e entries ih =>
    rw [handleEntries, handleEntry_outside (hplain e (by simp)) (h e (by simp))]
    exact ih (fun e he ↦ hplain e (by simp [he])) fun e he ↦ h e (by simp [he])

open Classical in
private theorem handleEntries_files {n : Nat} {w : WishList} {entries : List Entry}
    (hplain : ∀ e ∈ entries, ∃ ns, Utf8.encode e.name = joinNames ns)
    (h : ∀ e ∈ entries, e.name ≠ path) :
    handleEntries (joinNames ms) path peerPublicKey id now n w entries =
      (entries.filter fun e ↦ !e.isDir && decide (Inside ms e)).foldl (recordFile id) w := by
  induction entries generalizing n w with
  | nil => rfl
  | cons e entries ih =>
    have hrest := ih (n := n + 1)
      (w := handleEntry (joinNames ms) path peerPublicKey id (now n) w e)
      (fun e he ↦ hplain e (by simp [he])) fun e he ↦ h e (by simp [he])
    rw [handleEntries, hrest]
    by_cases hin : Inside ms e
    · rw [handleEntry_inside hin, if_neg (h e (by simp))]
      cases hdir : e.isDir with
      | true => simp [hdir]
      | false => simp [hdir, hin]
    · rw [handleEntry_outside (hplain e (by simp)) hin]
      simp [hin]

/-- Recording files with distinct names keeps the requests and writes each file once. -/
theorem foldl_recordFile {w : WishList} {r : DownloadRequest} (hr : w.getRequest id = .ok r)
    {files : List Entry} (hnodup : (files.map Entry.name).Nodup) :
    (files.foldl (recordFile id) w).getRequest = w.getRequest ∧
      ∀ k b, (files.foldl (recordFile id) w).requestedFilesByRequestId[k]? = some b ↔
        (∃ e ∈ files, k = requestKey id e.name ∧ b = requestValue e.size false) ∨
          (w.requestedFilesByRequestId[k]? = some b ∧
            ∀ e ∈ files, k ≠ requestKey id e.name) := by
  induction files generalizing w with
  | nil => simp
  | cons e files ih =>
    obtain ⟨hnew, hnodup⟩ := List.nodup_cons.mp hnodup
    have hrun := WishList.addRequestedFile_eq (f := ⟨e.name, e.size, id, false⟩) hr
    have hget : (recordFile id w e).getRequest = w.getRequest := by
      rw [recordFile, hrun]
      rfl
    obtain ⟨hkeep, hwrite⟩ := ih (w := recordFile id w e) (by rw [hget, hr]) hnodup
    rw [List.foldl_cons]
    refine ⟨hkeep.trans hget, fun k b ↦ ?_⟩
    rw [hwrite, recordFile, hrun]
    simp only [getElem?_insert, List.mem_cons, exists_eq_or_imp, forall_eq_or_imp]
    by_cases hk : k = requestKey id e.name
    · subst hk
      have hother : ∀ e' ∈ files, requestKey id e.name ≠ requestKey id e'.name := by
        intro e' he' heq
        rw [requestKey_inj] at heq
        exact hnew (heq.2 ▸ List.mem_map_of_mem he')
      constructor
      · rintro (⟨e', he', hke, -⟩ | ⟨hb, -⟩)
        · exact absurd hke (hother e' he')
        · rw [if_pos rfl] at hb
          exact Or.inl (Or.inl ⟨rfl, (Option.some.inj hb).symm⟩)
      · rintro ((⟨-, rfl⟩ | ⟨e', he', hke, -⟩) | ⟨-, hne, -⟩)
        · exact Or.inr ⟨if_pos rfl, hother⟩
        · exact absurd hke (hother e' he')
        · exact absurd rfl hne
    · simp only [hk, if_false, false_and, false_or, not_false_eq_true, true_and, ne_eq]

private theorem requestsByTimestamp_foldl_recordFile (w : WishList) (files : List Entry) :
    (files.foldl (recordFile id) w).requestsByTimestamp = w.requestsByTimestamp := by
  induction files generalizing w with
  | nil => rfl
  | cons e files ih =>
    rw [List.foldl_cons, ih, recordFile, WishList.addRequestedFile]
    split <;> rfl

end Loop

section Answer

variable {s : Shares} {v : View} (toLowercase : String → String) {p : String} {ms : List Name}

private theorem entry_plain (h : Consistent s v) {e : Entry} (he : IndexEntry s e) :
    ∃ ns, Utf8.encode e.name = joinNames ns := (h.key he).1

private theorem inside_iff_within (h : Consistent s v) (hms : Utf8.encode p = joinNames ms)
    {e : Entry} (he : IndexEntry s e) :
    Inside ms e ↔ Within (Utf8.encode p) (Utf8.encode e.name) := by
  obtain ⟨ns, hns⟩ := entry_plain h he
  rw [hms, hns, within_joinNames]
  constructor
  · rintro ⟨ns', hns', hp⟩
    rw [hns, joinNames_inj] at hns'
    rwa [hns']
  · exact fun hp ↦ ⟨ns, hns, hp⟩

private theorem entry_unique (h : Reachable s v) {e e' : Entry} (he : IndexEntry s e)
    (he' : IndexEntry s e') (hname : e.name = e'.name) : e = e' := by
  obtain ⟨name, size, isDir⟩ := e
  obtain ⟨name', size', isDir'⟩ := e'
  cases hname
  by_cases hd : isDir = isDir'
  · subst hd
    have hsize := Option.some.inj (he.symm.trans he')
    rw [Bytes.leU64_inj] at hsize
    cases (hsize : size = size')
    rfl
  · exfalso
    have hsome : ∀ {isDir size}, IndexEntry s ⟨name, size, isDir⟩ →
        (s.tree isDir)[Utf8.encode name]?.isSome := by
      intro isDir size hi
      rw [show (s.tree isDir)[Utf8.encode name]? = _ from hi]
      rfl
    cases isDir with
    | true =>
      have hfile : isDir' = false := by simpa using Ne.symm hd
      subst hfile
      exact h.not_dir_and_file (hsome he) (hsome he')
    | false =>
      have hdir : isDir' = true := by simpa using Ne.symm hd
      subst hdir
      exact h.not_dir_and_file (hsome he') (hsome he)

private theorem filterMap_scan_head (isDir : Bool) {b : Bytes} (hc : Consistent s v)
    (hb : (s.tree isDir)[Utf8.encode p]? = some b) :
    ∃ e rest, (scanPrefix (s.tree isDir) (Utf8.encode p)).filterMap
      (kvFilterMap toLowercase isDir true (Utf8.encode p).length none) = e :: rest ∧
        IndexEntry s e ∧ e.name = p := by
  obtain ⟨-, name, size, hname, rfl⟩ := hc.key hb
  rw [Utf8.encode_inj] at hname
  subst hname
  obtain ⟨rest, hrest⟩ := List.head?_eq_some_iff.mp (head?_scanPrefix hb)
  have hsel : kvFilterMap toLowercase isDir true (Utf8.encode p).length none
      (Utf8.encode p, Bytes.leU64 size) = some ⟨p, size, isDir⟩ :=
    (kvFilterMap_eq_some toLowercase).mpr ⟨rfl, rfl, Or.inl rfl⟩
  refine ⟨⟨p, size, isDir⟩, rest.filterMap
    (kvFilterMap toLowercase isDir true (Utf8.encode p).length none), ?_, hb, rfl⟩
  rw [hrest, List.filterMap_cons, hsel]

/-- In the answer for a path the entry of the path comes before everything below it. -/
theorem queryEntries_split (h : Reachable s v) (hms : Utf8.encode p = joinNames ms)
    (hp : s.dirs[Utf8.encode p]?.isSome ∨ s.files[Utf8.encode p]?.isSome) :
    ∃ before e after, s.queryEntries toLowercase p none true = before ++ e :: after ∧
      IndexEntry s e ∧ e.name = p ∧ (∀ a ∈ before, ¬ Inside ms a) ∧
        ∀ a ∈ after, a.name ≠ p := by
  have hc := h.consistent
  have hsplit : ∃ before e after, s.queryEntries toLowercase p none true = before ++ e :: after ∧
      IndexEntry s e ∧ e.name = p ∧ ∀ a ∈ before, ¬ Inside ms a := by
    rcases hp with hp | hp
    · obtain ⟨b, hb⟩ := Option.isSome_iff_exists.mp hp
      obtain ⟨e, rest, hhead, hindex, hname⟩ :=
        filterMap_scan_head toLowercase true hc hb
      refine ⟨[], e, rest ++ (scanPrefix s.files (Utf8.encode p)).filterMap
        (kvFilterMap toLowercase false true (Utf8.encode p).length none), ?_, hindex, hname,
        by simp⟩
      rw [Shares.queryEntries, show s.dirs = s.tree true from rfl, hhead]
      rfl
    · obtain ⟨b, hb⟩ := Option.isSome_iff_exists.mp hp
      obtain ⟨e, rest, hhead, hindex, hname⟩ :=
        filterMap_scan_head toLowercase false hc hb
      refine ⟨(scanPrefix s.dirs (Utf8.encode p)).filterMap
        (kvFilterMap toLowercase true true (Utf8.encode p).length none), e, rest, ?_, hindex,
        hname, ?_⟩
      · rw [Shares.queryEntries, show s.files = s.tree false from rfl, hhead]
      · -- a directory inside the request would make the requested file a directory
        intro a ha hin
        obtain ⟨kv, hkv, hsel⟩ := List.mem_filterMap.mp ha
        obtain ⟨rfl, hdir, -⟩ := (kvFilterMap_eq_some toLowercase).mp hsel
        obtain ⟨hget, -⟩ := mem_scanPrefix.mp hkv
        obtain ⟨ns, hns, hpre⟩ := hin
        rw [hns] at hget
        have hsome : s.dirs[joinNames ms]?.isSome := by
          by_cases he : ms = ns
          · rw [he, hget]
            rfl
          · have hkey : (s.tree true)[joinNames ns]?.isSome := by
              rw [show (s.tree true)[joinNames ns]? = _ from hget]
              rfl
            exact hc.dir_above hkey hpre he
        rw [← hms] at hsome
        exact h.not_dir_and_file hsome hp
  obtain ⟨before, e, after, hlist, hindex, hname, hbefore⟩ := hsplit
  refine ⟨before, e, after, hlist, hindex, hname, hbefore, fun a ha hap ↦ ?_⟩
  have hnodup := nodup_queryEntries toLowercase s p true
  have hmem : IndexEntry s a := by
    have hin : a ∈ s.queryEntries toLowercase p none true := by
      rw [hlist]
      simp [ha]
    exact ((mem_queryEntries toLowercase).mp hin).1
  rw [entry_unique h hmem hindex (hap.trans hname.symm)] at ha
  rw [hlist] at hnodup
  exact (List.nodup_cons.mp (List.nodup_append.mp hnodup).2.1).1 ha

end Answer

section Record

variable {s : Shares} {v : View} {w : WishList} {id : UInt32}

/-- No request and no file is recorded under the id yet. -/
structure Unused (w : WishList) (id : UInt32) : Prop where
  requests : ∀ k : Bytes, w.requestsByTimestamp[k]? ≠ some (Bytes.beU32 id)
  files : w.requestedFiles id = []

/-- The bytes of the files that are recorded under an id. -/
def recordedBytes (w : WishList) (id : UInt32) : Nat :=
  ((w.requestedFiles id).flatten.map fun f ↦ f.size.toNat).sum

/-- Under the id the wishlist holds one request for the path, of the size that the index
stores for it, and exactly the indexed files at or below the path. -/
structure RecordsSubtree (s : Shares) (p : String) (peerPublicKey : PublicKey) (id : UInt32)
    (w : WishList) : Prop where
  request : ∃ r, w.getRequest id = .ok r ∧ r.requestId = id ∧ r.path = p ∧
    r.peerPublicKey = peerPublicKey ∧
      (s.tree r.isDir)[Utf8.encode p]? = some (Bytes.leU64 r.totalSize) ∧
      r.totalSize = UInt64.ofNat (recordedBytes w id)
  one : ∃! k : Bytes, w.requestsByTimestamp[k]? = some (Bytes.beU32 id)
  once : ((w.requestedFiles id).flatten.map UiRequestedFile.path).Nodup
  files : ∀ f : UiRequestedFile, f ∈ (w.requestedFiles id).flatten ↔
    f.requestId = id ∧ f.downloaded = false ∧
      s.files[Utf8.encode f.path]? = some (Bytes.leU64 f.size) ∧
        Within (Utf8.encode p) (Utf8.encode f.path)

open Classical in
private theorem handleEntries_answer (h : Reachable s v) (w : WishList) (id : UInt32)
    (toLowercase : String → String) {p : String} {ms : List Name}
    (hms : Utf8.encode p = joinNames ms)
    (hp : s.dirs[Utf8.encode p]?.isSome ∨ s.files[Utf8.encode p]?.isSome)
    (peerPublicKey : PublicKey) (now : Nat → UInt64) :
    ∃ nowSecs e, ∃ files : List Entry, IndexEntry s e ∧ e.name = p ∧ (files.map Entry.name).Nodup ∧
      (∀ a, a ∈ files ↔ IndexEntry s a ∧ a.isDir = false ∧
        Within (Utf8.encode p) (Utf8.encode a.name)) ∧
      handleEntries (joinNames ms) p peerPublicKey id now 0 w
          (s.queryEntries toLowercase p none true) =
        files.foldl (recordFile id)
          (w.addRequest (.create nowSecs p e.size id peerPublicKey e.isDir)) := by
  have hc := h.consistent
  obtain ⟨before, e, after, hlist, hindex, hname, hbefore, hafter⟩ :=
    queryEntries_split toLowercase h hms hp
  have hnodup := nodup_queryEntries toLowercase s p true
  have hentry : ∀ a ∈ s.queryEntries toLowercase p none true, IndexEntry s a :=
    fun a ha ↦ ((mem_queryEntries toLowercase).mp ha).1
  have hplain : ∀ a ∈ s.queryEntries toLowercase p none true,
      ∃ ns, Utf8.encode a.name = joinNames ns := fun a ha ↦ entry_plain hc (hentry a ha)
  have hself : Inside ms e :=
    (inside_iff_within hc hms hindex).mpr (Or.inl (congrArg Utf8.encode hname))
  have hmem : ∀ a, IndexEntry s a → Inside ms a →
      a ∈ s.queryEntries toLowercase p none true := by
    intro a ha hin
    obtain ⟨ns, hns, hpre⟩ := hin
    rw [mem_queryEntries, hms, hns]
    exact ⟨ha, joinNames_prefix_mono hpre, Or.inl rfl⟩
  rw [hlist] at hplain hnodup hentry hmem
  refine ⟨now (0 + before.length), e,
    (e :: after).filter fun a ↦ !a.isDir && decide (Inside ms a), hindex, hname, ?_, ?_, ?_⟩
  · have hsub : ((e :: after).filter fun a ↦ !a.isDir && decide (Inside ms a)).Nodup :=
      (List.nodup_append.mp hnodup).2.1.filter _
    apply hsub.map_on
    intro a ha b hb heq
    have hof : ∀ c ∈ (e :: after).filter fun a ↦ !a.isDir && decide (Inside ms a),
        IndexEntry s c := by
      intro c hmem'
      apply hentry
      exact List.mem_append_right _ (List.mem_filter.mp hmem').1
    exact entry_unique h (hof a ha) (hof b hb) heq
  · intro a
    rw [List.mem_filter, Bool.and_eq_true, decide_eq_true_eq, Bool.not_eq_true']
    constructor
    · rintro ⟨ha, hdir, hin⟩
      have hi := hentry a (List.mem_append_right _ ha)
      exact ⟨hi, hdir, (inside_iff_within hc hms hi).mp hin⟩
    · rintro ⟨hi, hdir, hin⟩
      rw [← inside_iff_within hc hms hi] at hin
      refine ⟨?_, hdir, hin⟩
      rcases List.mem_append.mp (hmem a hi hin) with ha | ha
      · exact absurd hin (hbefore a ha)
      · exact ha
  · have hrest : ∀ n w', handleEntries (joinNames ms) p peerPublicKey id now n w' after =
        (after.filter fun a ↦ !a.isDir && decide (Inside ms a)).foldl (recordFile id) w' :=
      fun n w' ↦ handleEntries_files (fun a ha ↦ hplain a (by simp [ha])) hafter
    rw [hlist, handleEntries_append,
      handleEntries_outside (fun a ha ↦ hplain a (List.mem_append_left _ ha)) hbefore,
      handleEntries, handleEntry_inside hself, if_pos hname, hrest, hname]
    cases hdir : e.isDir with
    | true => simp [hdir]
    | false => simp [hdir, hself]

/-- A listing of the files of a subtree has as many bytes as the index sums up for it. -/
theorem sum_of_listing {p : Bytes} {listing : List UiRequestedFile}
    (hnodup : (listing.map UiRequestedFile.path).Nodup)
    (hkey : ∀ k b : Bytes, s.files[k]? = some b →
      ∃ name size, k = Utf8.encode name ∧ b = Bytes.leU64 size)
    (hmem : ∀ f, f ∈ listing ↔ f.requestId = id ∧ f.downloaded = false ∧
      s.files[Utf8.encode f.path]? = some (Bytes.leU64 f.size) ∧ Within p (Utf8.encode f.path)) :
    (listing.map fun f ↦ f.size.toNat).sum =
      weight s.files fun k b ↦ if decide (Within p k) then recordedSize b else 0 := by
  let record (f : UiRequestedFile) : Bytes × Bytes := (Utf8.encode f.path, Bytes.leU64 f.size)
  have hperm : (listing.map record).Perm
      (s.files.toList.filter fun kv ↦ decide (Within p kv.1)) := by
    apply (List.perm_ext_iff_of_nodup ?_ ((nodup_toList s.files).filter _)).mpr
    · rintro ⟨k, b⟩
      rw [List.mem_map, List.mem_filter, Std.ExtTreeMap.mem_toList_iff_getElem?_eq_some,
        decide_eq_true_eq]
      constructor
      · rintro ⟨f, hf, hrec⟩
        cases hrec
        exact ((hmem f).mp hf).2.2
      · rintro ⟨hget, hin⟩
        obtain ⟨name, size, rfl, rfl⟩ := hkey k b hget
        exact ⟨⟨name, size, id, false⟩, (hmem _).mpr ⟨rfl, rfl, hget, hin⟩, rfl⟩
    · apply List.Nodup.of_map Prod.fst
      rw [List.map_map]
      have hpaths := hnodup.map (f := Utf8.encode) fun a b ↦ Utf8.encode_inj.mp
      rwa [List.map_map] at hpaths
  rw [weight_ite, ← (hperm.map fun kv ↦ recordedSize kv.2).sum_eq, List.map_map]
  simp [record, Function.comp_def]

private theorem total_of_listing (h : Reachable s v) {e : Entry} (he : IndexEntry s e)
    {listing : List UiRequestedFile} (hnodup : (listing.map UiRequestedFile.path).Nodup)
    (hmem : ∀ f, f ∈ listing ↔ f.requestId = id ∧ f.downloaded = false ∧
      s.files[Utf8.encode f.path]? = some (Bytes.leU64 f.size) ∧
        Within (Utf8.encode e.name) (Utf8.encode f.path)) :
    e.size = UInt64.ofNat ((listing.map fun f ↦ f.size.toNat).sum) := by
  have hc := h.consistent
  have hkey : ∀ {k b : Bytes}, s.files[k]? = some b → _ :=
    fun {k b} (hk : (s.tree false)[k]? = some b) ↦ hc.key hk
  obtain ⟨name, size, isDir⟩ := e
  cases isDir with
  | true =>
    have hdir : s.dirs[Utf8.encode name]? = some (Bytes.leU64 size) := he
    have hsize := hc.dirs.size _ _ hdir
    rw [Bytes.leU64_inj] at hsize
    rw [sum_of_listing hnodup (fun k b hk ↦ (hkey hk).2) hmem, hsize]
    show UInt64.ofNat (weight s.files _) = UInt64.ofNat (weight s.files _)
    apply congrArg UInt64.ofNat
    apply weight_congr
    intro k b hk
    have hne : k ≠ Utf8.encode name := by
      rintro rfl
      exact h.not_dir_and_file (by rw [hdir]; rfl) (by rw [hk]; rfl)
    simp only [Within, decide_eq_true_eq, hne, false_or]
  | false =>
    have hfile : s.files[Utf8.encode name]? = some (Bytes.leU64 size) := he
    have hone : listing.Perm [⟨name, size, id, false⟩] := by
      apply (List.perm_ext_iff_of_nodup (List.Nodup.of_map _ hnodup) (by simp)).mpr
      intro f
      rw [hmem, List.mem_singleton]
      constructor
      · rintro ⟨hid, hdown, hget, hin⟩
        have hself : Utf8.encode f.path = Utf8.encode name := by
          rcases hin with heq | habove
          · exact heq
          · -- something below the file would make it a directory
            exfalso
            obtain ⟨⟨ms, hms⟩, -⟩ := hkey hfile
            have hbelow : HasBelow s.files (joinNames ms) :=
              ⟨_, by rw [hget]; rfl, hms ▸ habove⟩
            have hdir := hc.dirs.present ms hbelow
            rw [← hms] at hdir
            exact h.not_dir_and_file hdir (by rw [hfile]; rfl)
        rw [hself, hfile, Option.some.injEq, Bytes.leU64_inj] at hget
        obtain ⟨path, size', id', downloaded⟩ := f
        rw [Utf8.encode_inj] at hself
        cases hself
        cases hget
        cases hid
        cases hdown
        rfl
      · rintro rfl
        exact ⟨rfl, rfl, hfile, Or.inl rfl⟩
    rw [(hone.map fun f ↦ f.size.toNat).sum_eq]
    simp

private theorem listing_of_record {r : DownloadRequest} (hr : w.getRequest id = .ok r)
    (hnew : w.requestedFiles id = []) {files : List Entry}
    (hnodup : (files.map Entry.name).Nodup) (f : UiRequestedFile) :
    f ∈ ((files.foldl (recordFile id) w).requestedFiles id).flatten ↔
      f.requestId = id ∧ f.downloaded = false ∧ ∃ e ∈ files, e.name = f.path ∧ e.size = f.size := by
  have hold : ∀ b g, w.requestedFilesByRequestId[requestKey id f.path]? = some b →
      fromDbByRequestIdKeyValue (requestKey id f.path) b ≠ .ok g := by
    intro b g hb hg
    have hpath : g.path = f.path := by
      have hkey := eq_requestKey hg
      rw [requestKey_inj] at hkey
      exact hkey.2.symm
    have hmem : g.intoUiRequestedFile ∈ (w.requestedFiles id).flatten := by
      rw [WishList.mem_requestedFiles_iff]
      have hid : g.requestId = id := by
        have hkey := eq_requestKey hg
        rw [requestKey_inj] at hkey
        exact hkey.1.symm
      refine ⟨hid, b, g, ?_, ?_, rfl⟩
      · show w.requestedFilesByRequestId[requestKey id g.path]? = some b
        rw [hpath, hb]
      · show fromDbByRequestIdKeyValue (requestKey id g.path) b = .ok g
        rw [hpath, hg]
    rw [hnew] at hmem
    cases hmem
  obtain ⟨-, hwrite⟩ := foldl_recordFile hr hnodup
  rw [WishList.mem_requestedFiles_iff]
  apply and_congr_right
  intro hid
  constructor
  · rintro ⟨b, g, hb, hg, hf⟩
    rcases (hwrite _ b).mp hb with ⟨e, he, hkey, rfl⟩ | ⟨hb, -⟩
    · rw [requestKey_inj] at hkey
      rw [fromDbByRequestId_requestKey] at hg
      cases hg
      have hdown : false = f.downloaded := congrArg UiRequestedFile.downloaded hf
      have hsize : e.size = f.size := congrArg UiRequestedFile.size hf
      exact ⟨hdown.symm, e, he, hkey.2.symm, hsize⟩
    · exact absurd hg (hold b g hb)
  · rintro ⟨hdown, e, he, hname, hsize⟩
    obtain ⟨path, size, id', downloaded⟩ := f
    cases hid
    cases hdown
    cases hname
    cases hsize
    refine ⟨_, _, (hwrite _ _).mpr (Or.inl ⟨e, he, rfl, rfl⟩),
      fromDbByRequestId_requestKey .., rfl⟩

end Record

/-- The complete answer of a peer to a download request for a path of its index records the
request and exactly the files of the subtree, under an id that was not in use. -/
theorem download_records_subtree {s : Shares} {v : View} (h : Reachable s v)
    (toLowercase : String → String) {p : String}
    (hp : s.dirs[Utf8.encode p]?.isSome ∨ s.files[Utf8.encode p]?.isSome)
    {w : WishList} {id : UInt32} (hnew : Unused w id) (peerName : String)
    (peerPublicKey : PublicKey) (now : Nat → UInt64) :
    ∃ responses w', s.query toLowercase (some p) none true = .ok responses ∧
      download w ⟨peerName, p⟩ (.ok (responses.map .ok)) (some peerPublicKey) id now =
        (w', .ok id) ∧
      RecordsSubtree s p peerPublicKey id w' := by
  have hc := h.consistent
  obtain ⟨ms, hms⟩ : ∃ ms : List Name, Utf8.encode p = joinNames ms := by
    rcases hp with hp | hp
    · exact hc.dirs.keys _ hp
    · obtain ⟨ms, -, hms⟩ := hc.filesInShares _ hp
      exact ⟨ms, hms⟩
  obtain ⟨responses, hresponses⟩ := query_of_key toLowercase (Or.inr hp) true
  obtain ⟨nowSecs, e, files, hindex, hname, hnodup, hmem, hrun⟩ :=
    handleEntries_answer h w id toLowercase hms hp peerPublicKey now
  have hentries := Shares.query_entries toLowercase hresponses
  rw [Option.getD_some, Option.map_none] at hentries
  let r := DownloadRequest.create nowSecs p e.size id peerPublicKey e.isDir
  have hr : (w.addRequest r).getRequest id = .ok r := by
    rw [WishList.getRequest_addRequest rfl]
    exact if_pos rfl
  have hlisting := listing_of_record hr hnew.files hnodup
  obtain ⟨hkeep, -⟩ := foldl_recordFile hr hnodup
  have hfiles : ∀ f : UiRequestedFile,
      f ∈ ((files.foldl (recordFile id) (w.addRequest r)).requestedFiles id).flatten ↔
        f.requestId = id ∧ f.downloaded = false ∧
          s.files[Utf8.encode f.path]? = some (Bytes.leU64 f.size) ∧
            Within (Utf8.encode p) (Utf8.encode f.path) := by
    intro f
    rw [hlisting]
    apply and_congr_right'
    apply and_congr_right'
    constructor
    · rintro ⟨a, ha, hpath, hsize⟩
      obtain ⟨hi, hdir, hin⟩ := (hmem a).mp ha
      rw [IndexEntry, hdir] at hi
      rw [← hpath, ← hsize]
      exact ⟨hi, hin⟩
    · rintro ⟨hget, hin⟩
      exact ⟨⟨f.path, f.size, false⟩, (hmem _).mpr ⟨hget, rfl, hin⟩, rfl, rfl⟩
  have honce := WishList.nodup_requestedFiles (files.foldl (recordFile id) (w.addRequest r)) id
  refine ⟨responses, files.foldl (recordFile id) (w.addRequest r), hresponses, ?_,
    ⟨r, ?_, rfl, rfl, rfl, ?_, ?_⟩, ?_, honce, hfiles⟩
  · rw [download, safeRemoteRelativePath_joinNames hms]
    simp only [handleResponses_ok, hentries, hrun, r]
  · rw [hkeep, hr]
  · subst hname
    exact hindex
  · subst hname
    exact total_of_listing h hindex honce hfiles
  · rw [requestsByTimestamp_foldl_recordFile]
    have hstamp : ∀ k : Bytes, (w.addRequest r).requestsByTimestamp[k]? =
        if k = Bytes.beU64 nowSecs then some (Bytes.beU32 id) else w.requestsByTimestamp[k]? :=
      fun k ↦ getElem?_insert _ _ _ _
    refine ⟨Bytes.beU64 nowSecs, (hstamp _).trans (if_pos rfl), fun k hk ↦ ?_⟩
    by_contra hne
    have hold := (hstamp k).symm.trans hk
    rw [if_neg hne] at hold
    exact hnew.requests k hold

/-- A peer that serves the example index. -/
def servingKey : PublicKey := ⟨List.replicate 32 1, by decide⟩

private theorem unused_empty (id : UInt32) : Unused WishList.empty id := by
  constructor
  · simp [WishList.empty]
  · rfl

/-- The share `foo` is recorded without its sibling `foobar`. -/
theorem download_records_foo :
    ∃ responses w', fooFoobar.query id (some "foo") none true = .ok responses ∧
      download WishList.empty ⟨"peer", "foo"⟩ (.ok (responses.map .ok)) (some servingKey) 7
        (fun _ ↦ 1700000000) = (w', .ok 7) ∧
      RecordsSubtree fooFoobar "foo" servingKey 7 w' :=
  download_records_subtree fooFoobar_reachable id (p := "foo") (Or.inl (by decide))
    (unused_empty 7) "peer" servingKey fun _ ↦ 1700000000

/-- A wishlist in which an older request has the id 7. -/
def usedId : WishList :=
  ((WishList.empty.addRequest (.create 1600000000 "old.txt" 1 7 servingKey false)).addRequestedFile
    ⟨"old.txt", 1, 7, false⟩).1

/-- Three shares with a sparse file each, of the largest length that a file can have. -/
def sparseShares : Shares :=
  (((Shares.empty.scan "/a/foo" (Walk.oneFile oneTxt 9223372036854775807).items).1.scan
    "/a/bar" (Walk.oneFile oneTxt 9223372036854775807).items).1.scan
    "/a/baz" (Walk.oneFile oneTxt 9223372036854775807).items).1

private def answerFor (s : Shares) (p : String) : List LsResponse :=
  (s.query id (some p) none true).toOption.getD []

/-- An id that is in use keeps its older files, and the size of large shares wraps. -/
theorem download_of_used_id_or_sparse_shares :
    (∃ responses f, fooFoobar.query id (some "foo") none true = .ok responses ∧
      f ∈ ((download usedId ⟨"peer", "foo"⟩ (.ok (responses.map .ok)) (some servingKey) 7
        (fun _ ↦ 1700000000)).1.requestedFiles 7).flatten ∧
      fooFoobar.files[Utf8.encode f.path]? = none) ∧
    (∃ v responses r, Reachable sparseShares v ∧
      sparseShares.query id (some "") none true = .ok responses ∧
      let w' := (download WishList.empty ⟨"peer", ""⟩ (.ok (responses.map .ok))
        (some servingKey) 7 fun _ ↦ 1700000000).1
      w'.getRequest 7 = .ok r ∧ r.totalSize.toNat ≠ recordedBytes w' 7) := by
  constructor
  · refine ⟨answerFor fooFoobar "foo", ⟨"old.txt", 1, 7, false⟩, ?_, ?_, ?_⟩
    · rfl
    · decide
    · decide
  · let r : DownloadRequest := .create 1700000000 "" 9223372036854775805 7 servingKey true
    refine ⟨_, answerFor sparseShares "", r, ((Reachable.empty.scan "/a/foo" _).scan
      "/a/bar" _).scan "/a/baz" _, ?_, ?_, ?_⟩
    · rfl
    · exact WishList.getRequest_of_record (r := r) rfl (by decide)
    · decide

end SharedState

end HarddriveParty
