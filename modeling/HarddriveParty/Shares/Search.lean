import HarddriveParty.Shares.QueryExact

/-!
# Searches

A search is a filter of the plain listing. A query walks the directory tree and then the file
tree in key order and drops entries one by one, so a search term only drops more of them, and
the chunks hold what is left without a gap: each of them is full but the last. Nothing that the
walk keeps is lost on the way into the chunks.
-/

namespace HarddriveParty

open OrderedTree UnixPath

variable (toLowercase : String → String)

/-- The lower-cased name of an entry contains the lower-cased search term. -/
def NameContains (term : String) (e : Entry) : Prop :=
  Utf8.encode (toLowercase term) <:+: Utf8.encode (toLowercase e.name)

instance (term : String) : DecidablePred (NameContains toLowercase term) :=
  fun _ ↦ inferInstanceAs (Decidable (_ <:+: _))

/-- The names of a list of entries strictly increase in key order. -/
def KeysIncrease (entries : List Entry) : Prop :=
  entries.Pairwise fun a b ↦ compare (Utf8.encode a.name) (Utf8.encode b.name) = .lt

/-- Directories come before files, each group strictly increasing in its keys. -/
def KeyOrdered (entries : List Entry) : Prop :=
  ∃ dirs files, entries = dirs ++ files ∧ (∀ e ∈ dirs, e.isDir = true) ∧
    (∀ e ∈ files, e.isDir = false) ∧ KeysIncrease dirs ∧ KeysIncrease files

/-- The responses are successes of 1 to 64 entries, all but the last of exactly 64. -/
structure FullChunks (responses : List LsResponse) : Prop where
  success : ∀ r ∈ responses, r = .success r.entries
  size : ∀ r ∈ responses, 1 ≤ r.entries.length ∧ r.entries.length ≤ maxEntriesPerMessage
  full : ∀ r ∈ responses.dropLast, r.entries.length = maxEntriesPerMessage

/-- A chunked list of entries comes in full chunks. -/
theorem fullChunks_chunker (entries : List Entry) :
    FullChunks ((chunker maxEntriesPerMessage entries).map LsResponse.success) where
  success := by
    intro r hr
    obtain ⟨chunk, -, rfl⟩ := List.mem_map.mp hr
    rfl
  size := by
    intro r hr
    obtain ⟨chunk, hc, rfl⟩ := List.mem_map.mp hr
    obtain ⟨hne, hle⟩ := length_of_mem_chunker (by decide) hc
    exact ⟨List.length_pos_iff.mpr hne, hle⟩
  full := by
    intro r hr
    rw [← List.map_dropLast] at hr
    obtain ⟨chunk, hc, rfl⟩ := List.mem_map.mp hr
    exact length_of_mem_dropLast_chunker hc

/-- A search term keeps the records whose lower-cased name contains it. -/
theorem kvFilterMap_some (isDir recursive : Bool) (pathLen : Nat) (term : String)
    (kv : Bytes × Bytes) :
    kvFilterMap toLowercase isDir recursive pathLen (some (toLowercase term)) kv =
      (kvFilterMap toLowercase isDir recursive pathLen none kv).filter
        (NameContains toLowercase term) := by
  unfold kvFilterMap
  cases hname : Utf8.decode kv.1 with
  | none => rfl
  | some name =>
    by_cases hdeep : recursive = false ∧ slash ∈ querySuffix pathLen kv.1
    · simp only [if_pos hdeep, Option.filter_none]
    · simp only [if_neg hdeep, matchesSearch, if_true]
      cases Bytes.readLeU64 kv.2 with
      | none => simp
      | some size =>
        by_cases hterm : Utf8.encode (toLowercase term) <:+: Utf8.encode (toLowercase name)
        · simp [Option.filter, NameContains, hterm]
        · simp [Option.filter, NameContains, hterm]

private theorem filterMap_scan_filter (t : Tree) (p : Bytes) (isDir recursive : Bool)
    (pathLen : Nat) (term : String) :
    (scanPrefix t p).filterMap
        (kvFilterMap toLowercase isDir recursive pathLen (some (toLowercase term))) =
      ((scanPrefix t p).filterMap (kvFilterMap toLowercase isDir recursive pathLen none)).filter
        (NameContains toLowercase term) := by
  rw [List.filter_filterMap]
  exact List.filterMap_congr fun kv _ ↦ kvFilterMap_some toLowercase isDir recursive pathLen term kv

private theorem keysIncrease_scan (t : Tree) (p : Bytes) (isDir recursive : Bool)
    (pathLen : Nat) (searchterm : Option String) :
    KeysIncrease ((scanPrefix t p).filterMap
      (kvFilterMap toLowercase isDir recursive pathLen searchterm)) := by
  have hkeys : (scanPrefix t p).Pairwise fun a b ↦ compare a.1 b.1 = .lt :=
    t.ordered_keys_toList.filter _
  rw [KeysIncrease, List.pairwise_filterMap]
  refine hkeys.imp fun {kv kv'} hlt e he e' he' ↦ ?_
  obtain ⟨-, rfl⟩ := Shares.of_kvFilterMap toLowercase he
  obtain ⟨-, rfl⟩ := Shares.of_kvFilterMap toLowercase he'
  exact hlt

private theorem isDir_of_mem_scan (t : Tree) (p : Bytes) (isDir recursive : Bool)
    (pathLen : Nat) (searchterm : Option String) :
    ∀ e ∈ (scanPrefix t p).filterMap
      (kvFilterMap toLowercase isDir recursive pathLen searchterm), e.isDir = isDir := by
  intro e he
  obtain ⟨kv, -, hkv⟩ := List.mem_filterMap.mp he
  exact (Shares.of_kvFilterMap toLowercase hkv).1

namespace Shares

variable (s : Shares) (path : String) (searchterm : Option String) (recursive : Bool)

/-- A search finds the entries of the plain listing whose name contains the term. -/
theorem queryEntries_some (term : String) :
    s.queryEntries toLowercase path (some (toLowercase term)) recursive =
      (s.queryEntries toLowercase path none recursive).filter (NameContains toLowercase term) := by
  simp only [queryEntries, List.filter_append, filterMap_scan_filter]

/-- What a query finds is ordered. -/
theorem queryEntries_keyOrdered :
    KeyOrdered (s.queryEntries toLowercase path searchterm recursive) := by
  refine ⟨_, _, rfl, ?_, ?_, ?_, ?_⟩
  · exact isDir_of_mem_scan toLowercase _ _ _ _ _ _
  · exact isDir_of_mem_scan toLowercase _ _ _ _ _ _
  · exact keysIncrease_scan toLowercase _ _ _ _ _ _
  · exact keysIncrease_scan toLowercase _ _ _ _ _ _

/-- A search term does not decide whether a query succeeds. -/
theorem query_ok_iff {pathOption : Option String} {responses : List LsResponse} :
    s.query toLowercase pathOption searchterm recursive = .ok responses ↔
      (pathOption.getD "" = "" ∨ s.dirs[Utf8.encode (pathOption.getD "")]? ≠ none ∨
        s.files[Utf8.encode (pathOption.getD "")]? ≠ none) ∧
      responses = (chunker maxEntriesPerMessage (s.queryEntries toLowercase
        (pathOption.getD "") (searchterm.map toLowercase) recursive)).map LsResponse.success := by
  unfold query
  simp only
  split
  · next hmissing => simp [hmissing]
  · next hfound =>
    have hpath : pathOption.getD "" = "" ∨ s.dirs[Utf8.encode (pathOption.getD "")]? ≠ none ∨
        s.files[Utf8.encode (pathOption.getD "")]? ≠ none := by
      by_contra hno
      push Not at hno
      exact hfound hno
    rw [Except.ok.injEq, eq_comm (b := responses), and_iff_right hpath]

end Shares

/-- For a path and a mode with which a query succeeds, with whatever search term, the plain
query and every search succeed. The chunks of the plain query hold what its filter keeps of the
two scans, directories first, which is every entry of the index whose key starts with the path
(and, unless the query is recursive, has no further separator). The search finds exactly the
entries of the plain listing whose lower-cased name contains the lower-cased term, and both are
ordered and come in full chunks. -/
theorem search_filters_listing {s : Shares} {path searchterm : Option String} {recursive : Bool}
    {responses : List LsResponse}
    (h : s.query toLowercase path searchterm recursive = .ok responses) (term : String) :
    ∃ plain found, s.query toLowercase path none recursive = .ok plain ∧
      s.query toLowercase path (some term) recursive = .ok found ∧
      plain.flatMap LsResponse.entries =
        (scanPrefix s.dirs (Utf8.encode (path.getD ""))).filterMap
            (kvFilterMap toLowercase true recursive (Utf8.encode (path.getD "")).length none) ++
          (scanPrefix s.files (Utf8.encode (path.getD ""))).filterMap
            (kvFilterMap toLowercase false recursive (Utf8.encode (path.getD "")).length none) ∧
      (∀ e, e ∈ plain.flatMap LsResponse.entries ↔ IndexEntry s e ∧
        Utf8.encode (path.getD "") <+: Utf8.encode e.name ∧ (recursive = true ∨
          slash ∉ querySuffix (Utf8.encode (path.getD "")).length (Utf8.encode e.name))) ∧
      found.flatMap LsResponse.entries =
        (plain.flatMap LsResponse.entries).filter (NameContains toLowercase term) ∧
      KeyOrdered (plain.flatMap LsResponse.entries) ∧
      KeyOrdered (found.flatMap LsResponse.entries) ∧ FullChunks plain ∧ FullChunks found := by
  have hpath := ((s.query_ok_iff toLowercase searchterm recursive).mp h).1
  have hplain := (s.query_ok_iff toLowercase none recursive).mpr ⟨hpath, rfl⟩
  have hfound := (s.query_ok_iff toLowercase (some term) recursive).mpr ⟨hpath, rfl⟩
  have hentries := Shares.query_entries toLowercase hplain
  refine ⟨_, _, hplain, hfound, hentries, fun e ↦ ?_, ?_, ?_, ?_, fullChunks_chunker _,
    fullChunks_chunker _⟩
  · rw [hentries]
    exact mem_queryEntries toLowercase
  · rw [hentries, Shares.query_entries toLowercase hfound]
    exact s.queryEntries_some toLowercase _ recursive term
  · rw [hentries]
    exact s.queryEntries_keyOrdered toLowercase _ _ recursive
  · rw [Shares.query_entries toLowercase hfound]
    exact s.queryEntries_keyOrdered toLowercase _ _ recursive

/-- A query for `foo` lists the two shares and their files. -/
private theorem queryEntries_fooFoobar :
    fooFoobar.queryEntries String.toLower "foo" none true =
      [⟨"foo", 3, true⟩, ⟨"foobar", 3, true⟩, ⟨"foo/one.txt", 3, false⟩,
        ⟨"foobar/two.txt", 3, false⟩] := by
  decide

/-- A search for a term below `foo`, which it finds in the name of the other share. -/
theorem search_filters_foo :
    ∃ plain found, fooFoobar.query String.toLower (some "foo") none true = .ok plain ∧
      fooFoobar.query String.toLower (some "foo") (some "Bar") true = .ok found ∧
      plain.flatMap LsResponse.entries = [⟨"foo", 3, true⟩, ⟨"foobar", 3, true⟩,
        ⟨"foo/one.txt", 3, false⟩, ⟨"foobar/two.txt", 3, false⟩] ∧
      found.flatMap LsResponse.entries = [⟨"foobar", 3, true⟩, ⟨"foobar/two.txt", 3, false⟩] ∧
      KeyOrdered (found.flatMap LsResponse.entries) ∧ FullChunks plain ∧ FullChunks found := by
  obtain ⟨responses, hquery⟩ : ∃ responses,
      fooFoobar.query String.toLower (some "foo") none true = .ok responses :=
    query_of_key String.toLower (Or.inr (Or.inl (by decide))) true
  obtain ⟨plain, found, hplain, hfound, hscans, -, hfilter, -, hordered, hfull, hfull'⟩ :=
    search_filters_listing String.toLower hquery "Bar"
  have hlisted := hscans.trans queryEntries_fooFoobar
  refine ⟨plain, found, hplain, hfound, hlisted, ?_, hordered, hfull, hfull'⟩
  rw [hfilter, hlisted]
  decide +kernel

end HarddriveParty
