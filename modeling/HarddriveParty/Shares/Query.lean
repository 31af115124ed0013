import HarddriveParty.Shared.WireMessages
import HarddriveParty.Shares.Model

/-!
# Index queries

Model of the query side of `src/shares.rs`: a byte-prefix scan of the directory tree and of
the file tree, a test on the rest of each key, and the split into messages of at most 64
entries. `str::to_lowercase` is a parameter.
-/

namespace HarddriveParty

open UnixPath OrderedTree

/-- The maximum number of query results we can store in a single message
(`src/shares.rs:14`). -/
def maxEntriesPerMessage : Nat := 64

/-- Error when parsing a Db entry (`src/shares.rs:404`), without those of the database. -/
inductive EntryParseError where
  | pathNotFound
  deriving DecidableEq, Repr

section Chunker

variable {T : Type}

/-- One call of `Chunker::next` (`src/shares.rs:344`): the next chunk and what is left. -/
def chunkerNext (chunkSize : Nat) (entries : List T) : List T → Option (List T) × List T
  | [] => (if entries.isEmpty then none else some entries, [])
  | e :: inner =>
    if (entries ++ [e]).length = chunkSize then (some (entries ++ [e]), inner)
    else chunkerNext chunkSize (entries ++ [e]) inner

private def chunksWithin (chunkSize : Nat) : Nat → List T → List (List T)
  | 0, _ => []
  | fuel + 1, inner =>
    match chunkerNext chunkSize [] inner with
    | (none, _) => []
    | (some chunk, rest) => chunk :: chunksWithin chunkSize fuel rest

/-- All chunks that a `Chunker` yields. Each takes an entry from the inner iterator. -/
def chunker (chunkSize : Nat) (inner : List T) : List (List T) :=
  chunksWithin chunkSize inner.length inner

/-- A chunk takes entries from the front, at most as many as the chunk size. -/
theorem chunkerNext_spec {chunkSize : Nat} {entries inner chunk rest : List T}
    (hlen : entries.length < chunkSize)
    (h : chunkerNext chunkSize entries inner = (some chunk, rest)) :
    chunk ++ rest = entries ++ inner ∧ chunk ≠ [] ∧ chunk.length ≤ chunkSize := by
  induction inner generalizing entries with
  | nil =>
    rw [chunkerNext] at h
    split at h
    · cases h
    · next hne =>
      cases h
      exact ⟨rfl, by simpa using hne, Nat.le_of_lt hlen⟩
  | cons e inner ih =>
    rw [chunkerNext] at h
    split at h
    · next hfull =>
      cases h
      exact ⟨by simp, by simp, Nat.le_of_eq hfull⟩
    · next hpart =>
      have hnext : (entries ++ [e]).length < chunkSize := by
        rw [List.length_append, List.length_singleton] at hpart ⊢
        omega
      obtain ⟨happ, hne, hle⟩ := ih hnext h
      exact ⟨by simpa using happ, hne, hle⟩

/-- There is no further chunk only when nothing is left. -/
theorem chunkerNext_none {chunkSize : Nat} {entries inner rest : List T}
    (h : chunkerNext chunkSize entries inner = (none, rest)) : entries = [] ∧ inner = [] := by
  induction inner generalizing entries with
  | nil =>
    rw [chunkerNext] at h
    split at h
    · next he => exact ⟨by simpa using he, rfl⟩
    · cases h
  | cons e inner ih =>
    rw [chunkerNext] at h
    split at h
    · cases h
    · exact absurd (ih h).1 (by simp)

/-- A chunk that leaves something is full. -/
theorem length_chunkerNext {chunkSize : Nat} {entries inner chunk rest : List T}
    (h : chunkerNext chunkSize entries inner = (some chunk, rest)) (hrest : rest ≠ []) :
    chunk.length = chunkSize := by
  induction inner generalizing entries with
  | nil =>
    rw [chunkerNext] at h
    exact absurd (congrArg Prod.snd h).symm hrest
  | cons e inner ih =>
    rw [chunkerNext] at h
    split at h
    · next hfull =>
      cases h
      exact hfull
    · exact ih h

private theorem chunksWithin_spec {chunkSize : Nat} (hsize : 0 < chunkSize) (fuel : Nat)
    (inner : List T) (hfuel : inner.length ≤ fuel) :
    (chunksWithin chunkSize fuel inner).flatten = inner ∧
      ∀ chunk ∈ chunksWithin chunkSize fuel inner,
        chunk ≠ [] ∧ chunk.length ≤ chunkSize := by
  induction fuel generalizing inner with
  | zero =>
    have hnil : inner = [] := List.eq_nil_of_length_eq_zero (by omega)
    subst hnil
    exact ⟨rfl, by simp [chunksWithin]⟩
  | succ fuel ih =>
    rw [chunksWithin]
    split
    · next rest hnone =>
      rw [(chunkerNext_none hnone).2]
      exact ⟨rfl, by simp⟩
    · next chunk rest hsome =>
      obtain ⟨happ, hne, hle⟩ := chunkerNext_spec hsize hsome
      rw [List.nil_append] at happ
      have hrest : rest.length ≤ fuel := by
        have hlen := congrArg List.length happ
        have hpos := List.length_pos_iff.mpr hne
        rw [List.length_append] at hlen
        omega
      obtain ⟨hflat, hall⟩ := ih rest hrest
      refine ⟨by rw [List.flatten_cons, hflat, happ], fun c hc ↦ ?_⟩
      rcases List.mem_cons.mp hc with rfl | hc
      · exact ⟨hne, hle⟩
      · exact hall c hc

/-- Chunking loses nothing and keeps the order. -/
theorem chunker_flatten {chunkSize : Nat} (h : 0 < chunkSize) (inner : List T) :
    (chunker chunkSize inner).flatten = inner :=
  (chunksWithin_spec h _ inner (Nat.le_refl _)).1

/-- Every chunk has an entry and at most the chunk size. -/
theorem length_of_mem_chunker {chunkSize : Nat} (h : 0 < chunkSize) {inner chunk : List T}
    (hc : chunk ∈ chunker chunkSize inner) : chunk ≠ [] ∧ chunk.length ≤ chunkSize :=
  (chunksWithin_spec h _ inner (Nat.le_refl _)).2 chunk hc

private theorem length_of_mem_dropLast_chunksWithin {chunkSize : Nat} (fuel : Nat)
    (inner : List T) :
    ∀ chunk ∈ (chunksWithin chunkSize fuel inner).dropLast, chunk.length = chunkSize := by
  induction fuel generalizing inner with
  | zero => simp [chunksWithin]
  | succ fuel ih =>
    rw [chunksWithin]
    cases hnext : chunkerNext chunkSize [] inner with
    | mk first rest =>
    cases first with
    | none => simp
    | some chunk =>
      intro c hc
      by_cases hrest : chunksWithin chunkSize fuel rest = []
      · simp [hrest] at hc
      · rw [List.dropLast_cons_of_ne_nil hrest, List.mem_cons] at hc
        rcases hc with rfl | hc
        · -- a further chunk needs a further entry
          refine length_chunkerNext hnext fun hnil ↦ hrest ?_
          rw [hnil]
          cases fuel with
          | zero => rfl
          | succ fuel => rfl
        · exact ih rest c hc

/-- Every chunk but the last is full. -/
theorem length_of_mem_dropLast_chunker {chunkSize : Nat} {inner chunk : List T}
    (hc : chunk ∈ (chunker chunkSize inner).dropLast) : chunk.length = chunkSize :=
  length_of_mem_dropLast_chunksWithin _ inner chunk hc

end Chunker

section Query

variable (toLowercase : String → String)

/-- The rest of a key after the queried path, without the separator in front of it. -/
def querySuffix (pathLen : Nat) (name : Bytes) : Bytes :=
  let fullSuffix := name.drop pathLen
  if fullSuffix.head? = some slash then fullSuffix.tail else fullSuffix

/-- Whether the lower-cased name contains the lower-cased search term. -/
def matchesSearch (searchterm : Option String) (name : String) : Bool :=
  match searchterm with
  | none => true
  | some search => decide (Utf8.encode search <:+: Utf8.encode (toLowercase name))

/-- Filter a key/value database entry based on query and if selected convert to a struct
(`src/shares.rs:301`). -/
def kvFilterMap (isDir recursive : Bool) (pathLen : Nat) (searchterm : Option String)
    (kv : Bytes × Bytes) : Option Entry :=
  match Utf8.decode kv.1 with
  | none => none
  | some name =>
    if recursive = false ∧ slash ∈ querySuffix pathLen kv.1 then none
    else if matchesSearch toLowercase searchterm name then
      (Bytes.readLeU64 kv.2).map fun size ↦ ⟨name, size, isDir⟩
    else none

namespace Shares

/-- All entries that a query finds, directories before files. -/
def queryEntries (s : Shares) (path : String) (searchterm : Option String) (recursive : Bool) :
    List Entry :=
  let pathLen := (Utf8.encode path).length
  (scanPrefix s.dirs (Utf8.encode path)).filterMap
      (kvFilterMap toLowercase true recursive pathLen searchterm) ++
    (scanPrefix s.files (Utf8.encode path)).filterMap
      (kvFilterMap toLowercase false recursive pathLen searchterm)

/-- ls or search query (`src/shares.rs:163`), with the chunks that its iterator yields. -/
def query (s : Shares) (pathOption searchterm : Option String) (recursive : Bool) :
    Except EntryParseError (List LsResponse) :=
  let path := pathOption.getD ""
  -- Check that the given subdir / file exists
  if path ≠ "" ∧ s.dirs[Utf8.encode path]? = none ∧ s.files[Utf8.encode path]? = none then
    .error .pathNotFound
  else
    .ok ((chunker maxEntriesPerMessage
      (s.queryEntries toLowercase path (searchterm.map toLowercase) recursive)).map
        LsResponse.success)

/-- The chunks of a query hold the entries that it finds, in order. -/
theorem query_entries {s : Shares} {pathOption searchterm : Option String} {recursive : Bool}
    {responses : List LsResponse}
    (h : s.query toLowercase pathOption searchterm recursive = .ok responses) :
    responses.flatMap LsResponse.entries =
      s.queryEntries toLowercase (pathOption.getD "") (searchterm.map toLowercase) recursive := by
  unfold query at h
  simp only at h
  split at h
  · cases h
  · cases h
    rw [List.flatMap_map]
    exact List.flatMap_id.trans (chunker_flatten (by decide) _)

/-- A selected entry has the key and the size of its record. -/
theorem of_kvFilterMap {isDir recursive : Bool} {pathLen : Nat} {searchterm : Option String}
    {kv : Bytes × Bytes} {e : Entry}
    (h : kvFilterMap toLowercase isDir recursive pathLen searchterm kv = some e) :
    e.isDir = isDir ∧ kv = (Utf8.encode e.name, Bytes.leU64 e.size) := by
  unfold kvFilterMap at h
  split at h
  · cases h
  · next name hname =>
    split at h
    · cases h
    · split at h
      · obtain ⟨size, hsize, rfl⟩ := Option.map_eq_some_iff.mp h
        refine ⟨rfl, Prod.ext ?_ ?_⟩
        · exact (Utf8.encode_of_decode hname).symm
        · exact Bytes.eq_leU64_of_readLeU64 hsize
      · cases h

/-- A file that any query lists is in the file tree, with the listed size. -/
theorem files_of_mem_query {s : Shares} {pathOption searchterm : Option String}
    {recursive : Bool} {responses : List LsResponse}
    (h : s.query toLowercase pathOption searchterm recursive = .ok responses) {e : Entry}
    (he : e ∈ responses.flatMap LsResponse.entries) (hfile : e.isDir = false) :
    s.files[Utf8.encode e.name]? = some (Bytes.leU64 e.size) := by
  rw [query_entries toLowercase h, queryEntries, List.mem_append] at he
  rcases he with hdir | hmem
  · obtain ⟨kv, -, hkv⟩ := List.mem_filterMap.mp hdir
    rw [(of_kvFilterMap toLowercase hkv).1] at hfile
    cases hfile
  · obtain ⟨kv, hscan, hkv⟩ := List.mem_filterMap.mp hmem
    obtain ⟨-, rfl⟩ := of_kvFilterMap toLowercase hkv
    exact (mem_scanPrefix.mp hscan).1

end Shares

end Query

end HarddriveParty
