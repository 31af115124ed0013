import HarddriveParty.Shares.Query
import HarddriveParty.Shares.Refinement

/-!
# What a query returns

A query selects keys by a byte prefix. On a reachable index this is the queried subtree
exactly when no other key starts with the bytes of the queried path without lying below it.
-/

namespace HarddriveParty

open UnixPath OrderedTree

/-- The tree that holds directories or files. -/
def Shares.tree (s : Shares) (isDir : Bool) : Tree := if isDir then s.dirs else s.files

/-- The entry is in the index, with its stored size. -/
def IndexEntry (s : Shares) (e : Entry) : Prop :=
  (s.tree e.isDir)[Utf8.encode e.name]? = some (Bytes.leU64 e.size)

/-- The path `k` equals `p` or has `p` as a component-wise ancestor. -/
def Within (p k : Bytes) : Prop := k = p ∨ IsAncestor p k

instance (p k : Bytes) : Decidable (Within p k) := inferInstanceAs (Decidable (_ ∨ _))

/-- The path `k` is `p` itself or a direct child of `p`. -/
def SelfOrChild (p k : Bytes) : Prop := k = p ∨ ∃ c, components k = components p ++ [c]

/-- The entries are exactly the index entries at the selected paths, each once. -/
structure ListsExactly (s : Shares) (sel : Bytes → Prop) (entries : List Entry) : Prop where
  once : entries.Nodup
  mem : ∀ e, e ∈ entries ↔ IndexEntry s e ∧ sel (Utf8.encode e.name)
  all : ∀ isDir k, (s.tree isDir)[k]?.isSome → sel k →
    ∃ e ∈ entries, e.isDir = isDir ∧ Utf8.encode e.name = k

/-- No key starts with the bytes of `p` unless it is `p` or lies below it. -/
def NoSiblings (s : Shares) (p : Bytes) : Prop :=
  ∀ isDir k, (s.tree isDir)[k]?.isSome → p <+: k → Within p k

/-- A query without a search term succeeds and its chunks list exactly the queried subtree,
or the queried path and its direct children. -/
def ReturnsExactly (toLowercase : String → String) (s : Shares) (p : String)
    (recursive : Bool) : Prop :=
  ∃ responses, s.query toLowercase (some p) none recursive = .ok responses ∧
    ListsExactly s ((if recursive then Within else SelfOrChild) (Utf8.encode p))
      (responses.flatMap LsResponse.entries)

section Select

variable (toLowercase : String → String)

/-- Without a search term an entry of a tree is selected by its key alone. -/
theorem kvFilterMap_eq_some {isDir recursive : Bool} {pathLen : Nat}
    {kv : Bytes × Bytes} {e : Entry} :
    kvFilterMap toLowercase isDir recursive pathLen none kv = some e ↔
      kv = (Utf8.encode e.name, Bytes.leU64 e.size) ∧ e.isDir = isDir ∧
        (recursive = true ∨ slash ∉ querySuffix pathLen kv.1) := by
  obtain ⟨k, b⟩ := kv
  unfold kvFilterMap
  constructor
  · intro h
    split at h
    · cases h
    · next name hname =>
      split at h
      · cases h
      · next hkeep =>
        simp only [matchesSearch, if_true, Option.map_eq_some_iff] at h
        obtain ⟨size, hsize, rfl⟩ := h
        refine ⟨?_, rfl, ?_⟩
        · rw [Utf8.encode_of_decode hname, ← Bytes.eq_leU64_of_readLeU64 hsize]
        · cases recursive with
          | true => exact Or.inl rfl
          | false => exact Or.inr fun hs ↦ hkeep ⟨rfl, hs⟩
  · rintro ⟨hkv, rfl, hkeep⟩
    obtain ⟨rfl, rfl⟩ := Prod.mk.inj hkv
    simp only [Utf8.decode_encode]
    rw [if_neg]
    · simp [matchesSearch]
    · rintro ⟨hr, hs⟩
      rcases hkeep with ht | hns
      · rw [hr] at ht
        cases ht
      · exact hns hs

/-- Without a search term a query finds the entries whose key starts with the path and,
unless it is recursive, has no further separator. -/
theorem mem_queryEntries {s : Shares} {p : String} {recursive : Bool} {e : Entry} :
    e ∈ s.queryEntries toLowercase p none recursive ↔
      IndexEntry s e ∧ Utf8.encode p <+: Utf8.encode e.name ∧
        (recursive = true ∨
          slash ∉ querySuffix (Utf8.encode p).length (Utf8.encode e.name)) := by
  have hpart : ∀ isDir, e ∈ (scanPrefix (s.tree isDir) (Utf8.encode p)).filterMap
      (kvFilterMap toLowercase isDir recursive (Utf8.encode p).length none) ↔
      e.isDir = isDir ∧ IndexEntry s e ∧ Utf8.encode p <+: Utf8.encode e.name ∧
        (recursive = true ∨
          slash ∉ querySuffix (Utf8.encode p).length (Utf8.encode e.name)) := by
    intro isDir
    rw [List.mem_filterMap]
    constructor
    · rintro ⟨kv, hkv, hsome⟩
      obtain ⟨rfl, rfl, hkeep⟩ := (kvFilterMap_eq_some toLowercase).mp hsome
      obtain ⟨hget, hpre⟩ := mem_scanPrefix.mp hkv
      exact ⟨rfl, hget, hpre, hkeep⟩
    · rintro ⟨rfl, hget, hpre, hkeep⟩
      exact ⟨_, mem_scanPrefix.mpr ⟨hget, hpre⟩,
        (kvFilterMap_eq_some toLowercase).mpr ⟨rfl, rfl, hkeep⟩⟩
  rw [Shares.queryEntries, List.mem_append]
  refine (or_congr (hpart true) (hpart false)).trans ?_
  cases e.isDir <;> simp

private theorem nodup_filterMap_scan (t : Tree) (p : Bytes) (isDir recursive : Bool) :
    ((scanPrefix t p).filterMap
      (kvFilterMap toLowercase isDir recursive p.length none)).Nodup := by
  refine (nodup_scanPrefix t p).filterMap fun kv kv' e he he' ↦ ?_
  rw [((kvFilterMap_eq_some toLowercase).mp he).1, ((kvFilterMap_eq_some toLowercase).mp he').1]

/-- A query finds every entry once. -/
theorem nodup_queryEntries (s : Shares) (p : String) (recursive : Bool) :
    (s.queryEntries toLowercase p none recursive).Nodup := by
  refine List.nodup_append.mpr ⟨nodup_filterMap_scan _ _ _ _ _, nodup_filterMap_scan _ _ _ _ _, ?_⟩
  intro e he e' he' heq
  obtain ⟨kv, -, hkv⟩ := List.mem_filterMap.mp he
  obtain ⟨kv', -, hkv'⟩ := List.mem_filterMap.mp he'
  have hd := ((kvFilterMap_eq_some toLowercase).mp hkv).2.1
  have hf := ((kvFilterMap_eq_some toLowercase).mp hkv').2.1
  rw [heq, hf] at hd
  cases hd

end Select

section Keys

variable {s : Shares} {v : View}

/-- Every key of a consistent index is a UTF-8 path of names with a size. -/
theorem Consistent.key (h : Consistent s v) {isDir : Bool} {k b : Bytes}
    (hk : (s.tree isDir)[k]? = some b) :
    (∃ ns : List Name, k = joinNames ns) ∧
      ∃ name size, k = Utf8.encode name ∧ b = Bytes.leU64 size := by
  have hfile : ∀ f, s.files[f]?.isSome → (Utf8.decode f).isSome := by
    intro f hf
    obtain ⟨b, hb⟩ := Option.isSome_iff_exists.mp hf
    obtain ⟨name, rel, size, hv, rfl, -⟩ := (h.files f b).mp hb
    exact (h.paths name rel size hv).2
  cases isDir with
  | false =>
    have hs : s.files[k]?.isSome := by
      rw [show s.files[k]? = some b from hk]
      rfl
    obtain ⟨ns, -, rfl⟩ := h.filesInShares k hs
    obtain ⟨name, hname⟩ := Option.isSome_iff_exists.mp (hfile _ hs)
    obtain ⟨_, _, size, -, -, rfl⟩ := (h.files _ b).mp hk
    exact ⟨⟨ns, rfl⟩, name, size, (Utf8.encode_of_decode hname).symm, rfl⟩
  | true =>
    have hs : s.dirs[k]?.isSome := by
      rw [show s.dirs[k]? = some b from hk]
      rfl
    obtain ⟨ns, rfl⟩ := h.dirs.keys k hs
    refine ⟨⟨ns, rfl⟩, ?_⟩
    have hdec : (Utf8.decode (joinNames ns)).isSome := by
      by_cases hns : ns = []
      · subst hns
        rfl
      · obtain ⟨f, hf, ha⟩ := h.dirs.needed ns hns hs
        obtain ⟨ms, -, rfl⟩ := h.filesInShares f hf
        exact decode_joinNames_of_prefix (isAncestor_joinNames.mp ha).1 (hfile _ hf)
    obtain ⟨name, hname⟩ := Option.isSome_iff_exists.mp hdec
    exact ⟨name, _, (Utf8.encode_of_decode hname).symm, h.dirs.size _ b hk⟩

/-- The directories above a key are keys. -/
theorem Consistent.dir_above (h : Consistent s v) {isDir : Bool} {ns ms : List Name}
    (hk : (s.tree isDir)[joinNames ns]?.isSome) (hm : ms <+: ns) (hne : ms ≠ ns) :
    s.dirs[joinNames ms]?.isSome := by
  cases isDir with
  | false =>
    exact h.dirs.present ms ⟨joinNames ns, hk, isAncestor_joinNames.mpr ⟨hm, hne⟩⟩
  | true =>
    have hns : ns ≠ [] := by
      rintro rfl
      exact hne (List.prefix_nil.mp hm)
    obtain ⟨f, hf, ha⟩ := h.dirs.needed ns hns hk
    obtain ⟨fs, -, rfl⟩ := h.filesInShares f hf
    obtain ⟨hp, hlt⟩ := isAncestor_joinNames.mp ha
    refine h.dirs.present ms ⟨joinNames fs, hf, isAncestor_joinNames.mpr ⟨hm.trans hp, ?_⟩⟩
    rintro rfl
    exact hlt (hp.eq_of_length_le hm.length_le)

/-- On paths of names a subtree is a prefix of names. -/
theorem within_joinNames {ns ms : List Name} :
    Within (joinNames ms) (joinNames ns) ↔ ms <+: ns := by
  rw [Within, joinNames_inj, isAncestor_joinNames]
  constructor
  · rintro (rfl | ⟨h, -⟩)
    · exact List.prefix_rfl
    · exact h
  · intro h
    by_cases he : ns = ms
    · exact Or.inl he
    · exact Or.inr ⟨h, fun hm ↦ he hm.symm⟩

private theorem selfOrChild_joinNames {ms t : List Name} :
    SelfOrChild (joinNames ms) (joinNames (ms ++ t)) ↔ t.length ≤ 1 := by
  rw [SelfOrChild, joinNames_inj, components_joinNames, components_joinNames, List.map_append]
  constructor
  · rintro (h | ⟨c, hc⟩)
    · rw [List.append_right_eq_self.mp h]
      exact Nat.zero_le _
    · have hl := congrArg List.length (List.append_cancel_left hc)
      rw [List.length_map, List.length_singleton] at hl
      omega
  · intro h
    cases t with
    | nil => exact Or.inl (List.append_nil ms)
    | cons n t =>
      have ht : t = [] := by simpa using h
      rw [ht]
      exact Or.inr ⟨_, rfl⟩

private theorem prefix_of_selfOrChild {ns ms : List Name}
    (h : SelfOrChild (joinNames ms) (joinNames ns)) : ms <+: ns := by
  rcases h with h | ⟨c, hc⟩
  · rw [joinNames_inj.mp h]
  · rw [← startsWith_joinNames, StartsWith, hc]
    exact List.prefix_append _ _

private theorem slash_mem_joinNames {t : List Name} : slash ∈ joinNames t ↔ ¬ t.length ≤ 1 := by
  cases t with
  | nil => simp
  | cons n t =>
    cases t with
    | nil => simpa using n.property.2.1
    | cons m t => simp [joinNames_cons n (List.cons_ne_nil m t)]

private theorem querySuffix_joinNames (ms t : List Name) :
    querySuffix (joinNames ms).length (joinNames (ms ++ t)) = joinNames t := by
  by_cases hm : ms = []
  · subst hm
    rw [querySuffix, joinNames_nil, List.length_nil, List.drop_zero, List.nil_append]
    simp only [if_neg (head?_joinNames t)]
  · by_cases ht : t = []
    · subst ht
      simp [querySuffix]
    · rw [querySuffix, joinNames_append hm ht, List.drop_left]
      simp

/-- More names make more bytes. -/
theorem joinNames_prefix_mono {ns ms : List Name} (h : ms <+: ns) :
    joinNames ms <+: joinNames ns := by
  by_cases hm : ms = []
  · subst hm
    exact List.nil_prefix
  · rcases (joinNames_prefix_iff hm).mp h with he | hp
    · rw [he]
    · exact (List.prefix_append _ _).trans hp

/-- Among the keys at or above a key that shares the bytes of a path without lying below it,
one has no further separator after these bytes. -/
theorem exists_sibling {ns ms : List Name} (hp : joinNames ms <+: joinNames ns)
    (hn : ¬ ms <+: ns) :
    ∃ u, u <+: ns ∧ ¬ ms <+: u ∧ joinNames ms <+: joinNames u ∧
      slash ∉ querySuffix (joinNames ms).length (joinNames u) := by
  have hms : ms ≠ [] := by
    rintro rfl
    exact hn List.nil_prefix
  obtain ⟨rest, hrest⟩ := hp
  have hhead : rest.head? ≠ some slash := by
    intro hh
    obtain ⟨tail, rfl⟩ := List.head?_eq_some_iff.mp hh
    exact hn ((joinNames_prefix_iff hms).mpr (Or.inr ⟨tail, by simpa using hrest⟩))
  have hsuffix : ∀ a : Bytes, a.head? ≠ some slash →
      querySuffix (joinNames ms).length (joinNames ms ++ a) = a := by
    intro a ha
    rw [querySuffix, List.drop_left]
    simp only [if_neg ha]
  by_cases hs : slash ∈ rest
  · -- the key is cut before the first separator of the rest
    obtain ⟨a, b, rfl, ha⟩ := List.eq_append_cons_of_mem hs
    have hahead : a.head? ≠ some slash := fun hh ↦ ha (List.mem_of_head? hh)
    have hns : ns ≠ [] := by
      rintro rfl
      simp at hrest
    have hpieces := pieces_joinNames hns
    rw [← hrest, ← List.append_assoc, pieces, List.splitOn_append_cons_self] at hpieces
    obtain ⟨u, w, rfl, hu, -⟩ := List.map_eq_append_iff.mp hpieces.symm
    have hjoin : joinNames u = joinNames ms ++ a := by
      rw [joinNames, hu, List.intercalate_splitOn]
    refine ⟨u, List.prefix_append u w, fun hm ↦ hn (hm.trans (List.prefix_append u w)), ?_, ?_⟩
    · rw [hjoin]
      exact List.prefix_append _ _
    · rw [hjoin, hsuffix a hahead]
      exact ha
  · refine ⟨ns, List.prefix_rfl, hn, ⟨rest, hrest⟩, ?_⟩
    rw [← hrest, hsuffix rest hhead]
    exact hs

end Keys

section Exact

variable {s : Shares} {v : View} (toLowercase : String → String)

/-- A query for the root or for a path in the index is answered. -/
theorem query_of_key {p : String}
    (hp : p = "" ∨ s.dirs[Utf8.encode p]?.isSome ∨ s.files[Utf8.encode p]?.isSome)
    (recursive : Bool) :
    ∃ responses, s.query toLowercase (some p) none recursive = .ok responses := by
  refine ⟨_, if_neg ?_⟩
  rintro ⟨hne, hd, hf⟩
  simp only [Option.getD_some] at hne hd hf
  rcases hp with hp | hp | hp
  · exact hne hp
  · rw [hd] at hp
    cases hp
  · rw [hf] at hp
    cases hp

private theorem returnsExactly_iff (h : Consistent s v) {p : String}
    (hp : p = "" ∨ s.dirs[Utf8.encode p]?.isSome ∨ s.files[Utf8.encode p]?.isSome)
    (recursive : Bool) :
    ReturnsExactly toLowercase s p recursive ↔
      ∀ isDir k, (s.tree isDir)[k]?.isSome →
        ((Utf8.encode p <+: k ∧
          (recursive = true ∨ slash ∉ querySuffix (Utf8.encode p).length k)) ↔
            (if recursive then Within else SelfOrChild) (Utf8.encode p) k) := by
  obtain ⟨responses, hresponses⟩ := query_of_key toLowercase hp recursive
  have hentries := Shares.query_entries toLowercase hresponses
  rw [Option.getD_some, Option.map_none] at hentries
  constructor
  · rintro ⟨responses', hresponses', hlist⟩ isDir k hk
    rw [hresponses] at hresponses'
    cases hresponses'
    rw [hentries] at hlist
    obtain ⟨b, hb⟩ := Option.isSome_iff_exists.mp hk
    obtain ⟨-, name, size, rfl, rfl⟩ := h.key hb
    have hindex : IndexEntry s ⟨name, size, isDir⟩ := hb
    have hmem := hlist.mem ⟨name, size, isDir⟩
    rw [mem_queryEntries, and_iff_right hindex, and_iff_right hindex] at hmem
    exact hmem
  · intro hsel
    refine ⟨responses, hresponses, ?_⟩
    rw [hentries]
    have hmem : ∀ e, e ∈ s.queryEntries toLowercase p none recursive ↔ IndexEntry s e ∧
        (if recursive then Within else SelfOrChild) (Utf8.encode p) (Utf8.encode e.name) := by
      intro e
      rw [mem_queryEntries]
      refine and_congr_right fun he ↦ hsel e.isDir _ ?_
      rw [show (s.tree e.isDir)[Utf8.encode e.name]? = _ from he]
      rfl
    refine ⟨nodup_queryEntries _ _ _ _, hmem, fun isDir k hk hin ↦ ?_⟩
    obtain ⟨b, hb⟩ := Option.isSome_iff_exists.mp hk
    obtain ⟨-, name, size, rfl, rfl⟩ := h.key hb
    exact ⟨⟨name, size, isDir⟩, (hmem _).mpr ⟨hb, hin⟩, rfl, rfl⟩

private theorem path_of_key (h : Consistent s v) {p : String}
    (hp : p = "" ∨ s.dirs[Utf8.encode p]?.isSome ∨ s.files[Utf8.encode p]?.isSome) :
    ∃ ms : List Name, Utf8.encode p = joinNames ms := by
  rcases hp with rfl | hp | hp
  · exact ⟨[], rfl⟩
  · exact h.dirs.keys _ hp
  · obtain ⟨ms, -, hms⟩ := h.filesInShares _ hp
    exact ⟨ms, hms⟩

/-- A recursive query on a consistent index lists the subtree unless there are siblings. -/
theorem Consistent.returnsExactly_recursive (h : Consistent s v) {p : String}
    (hp : p = "" ∨ s.dirs[Utf8.encode p]?.isSome ∨ s.files[Utf8.encode p]?.isSome) :
    ReturnsExactly toLowercase s p true ↔ NoSiblings s (Utf8.encode p) := by
  rw [returnsExactly_iff toLowercase h hp]
  obtain ⟨ms, hms⟩ := path_of_key h hp
  rw [hms]
  refine forall_congr' fun isDir ↦ forall_congr' fun k ↦ forall_congr' fun hk ↦ ?_
  obtain ⟨b, hb⟩ := Option.isSome_iff_exists.mp hk
  obtain ⟨⟨ns, rfl⟩, -⟩ := h.key hb
  simp only [if_true, true_or, and_true]
  refine ⟨fun hiff ↦ hiff.mp, fun himp ↦ ⟨himp, fun hw ↦ ?_⟩⟩
  exact joinNames_prefix_mono (within_joinNames.mp hw)

/-- A query for the direct children is exact under the same condition. -/
theorem Consistent.returnsExactly_children (h : Consistent s v) {p : String}
    (hp : p = "" ∨ s.dirs[Utf8.encode p]?.isSome ∨ s.files[Utf8.encode p]?.isSome) :
    ReturnsExactly toLowercase s p false ↔ NoSiblings s (Utf8.encode p) := by
  rw [returnsExactly_iff toLowercase h hp]
  obtain ⟨ms, hms⟩ := path_of_key h hp
  rw [hms]
  simp only [Bool.false_eq_true, if_false, false_or]
  constructor
  · intro hiff isDir k hk hpre
    obtain ⟨b, hb⟩ := Option.isSome_iff_exists.mp hk
    obtain ⟨⟨ns, rfl⟩, -⟩ := h.key hb
    rw [within_joinNames]
    by_contra hn
    obtain ⟨u, hu, hmu, hpreu, hslash⟩ := exists_sibling hpre hn
    have hkey : ∃ isDir', (s.tree isDir')[joinNames u]?.isSome := by
      by_cases he : u = ns
      · exact ⟨isDir, he ▸ hk⟩
      · exact ⟨true, h.dir_above hk hu he⟩
    obtain ⟨isDir', hkey⟩ := hkey
    exact hmu (prefix_of_selfOrChild ((hiff isDir' _ hkey).mp ⟨hpreu, hslash⟩))
  · intro hno isDir k hk
    obtain ⟨b, hb⟩ := Option.isSome_iff_exists.mp hk
    obtain ⟨⟨ns, rfl⟩, -⟩ := h.key hb
    constructor
    · rintro ⟨hpre, hslash⟩
      obtain ⟨t, rfl⟩ := within_joinNames.mp (hno isDir _ hk hpre)
      rw [querySuffix_joinNames, slash_mem_joinNames, not_not] at hslash
      exact selfOrChild_joinNames.mpr hslash
    · intro hchild
      have hpre := prefix_of_selfOrChild hchild
      refine ⟨joinNames_prefix_mono hpre, ?_⟩
      obtain ⟨t, rfl⟩ := hpre
      rw [querySuffix_joinNames, slash_mem_joinNames, not_not]
      exact selfOrChild_joinNames.mp hchild

end Exact

/-- On every reachable index and for every path in it, both query modes return exactly the
queried entries when, and only when, no other key starts with the bytes of the path. -/
theorem query_exact_iff {s : Shares} {v : View} (h : Reachable s v)
    (toLowercase : String → String) (p : String)
    (hp : p = "" ∨ s.dirs[Utf8.encode p]?.isSome ∨ s.files[Utf8.encode p]?.isSome) :
    (ReturnsExactly toLowercase s p true ↔ NoSiblings s (Utf8.encode p)) ∧
      (ReturnsExactly toLowercase s p false ↔ NoSiblings s (Utf8.encode p)) :=
  ⟨h.consistent.returnsExactly_recursive toLowercase hp,
    h.consistent.returnsExactly_children toLowercase hp⟩

private theorem mem_tree_fooFoobar {isDir : Bool} {k : Bytes}
    (hk : (fooFoobar.tree isDir)[k]?.isSome) :
    k ∈ ["", "foo", "foobar", "foo/one.txt", "foobar/two.txt"].map Utf8.encode := by
  obtain ⟨b, hb⟩ := Option.isSome_iff_exists.mp hk
  have hscan : k ∈ (scanPrefix (fooFoobar.tree isDir) []).map Prod.fst :=
    List.mem_map.mpr ⟨(k, b), mem_scanPrefix.mpr ⟨hb, List.nil_prefix⟩, rfl⟩
  revert hscan
  cases isDir with
  | true => exact fun hscan ↦ (by decide : ∀ k ∈ (scanPrefix fooFoobar.dirs []).map Prod.fst,
      k ∈ ["", "foo", "foobar", "foo/one.txt", "foobar/two.txt"].map Utf8.encode) k hscan
  | false => exact fun hscan ↦ (by decide : ∀ k ∈ (scanPrefix fooFoobar.files []).map Prod.fst,
      k ∈ ["", "foo", "foobar", "foo/one.txt", "foobar/two.txt"].map Utf8.encode) k hscan

/-- No other key starts with the name of the longer share. -/
private theorem noSiblings_foobar : NoSiblings fooFoobar (Utf8.encode "foobar") := by
  intro isDir k hk
  have hall : ∀ k ∈ ["", "foo", "foobar", "foo/one.txt", "foobar/two.txt"].map Utf8.encode,
      Utf8.encode "foobar" <+: k → Within (Utf8.encode "foobar") k := by
    decide
  exact hall k (mem_tree_fooFoobar hk)

/-- A query for the share `foobar` is exact, beside the share `foo`. -/
theorem query_exact_foobar :
    ReturnsExactly id fooFoobar "foobar" true ∧ ReturnsExactly id fooFoobar "foobar" false := by
  obtain ⟨hrecursive, hchildren⟩ :=
    query_exact_iff fooFoobar_reachable id "foobar" (Or.inr (Or.inl (by decide)))
  exact ⟨hrecursive.mpr noSiblings_foobar, hchildren.mpr noSiblings_foobar⟩

private theorem foobar_is_sibling : ¬ NoSiblings fooFoobar (Utf8.encode "foo") := by
  intro h
  exact absurd (h true (Utf8.encode "foobar") (by decide) (by decide)) (by decide)

/-- With shares `foo` and `foobar` a query for `foo` also returns entries of `foobar`. -/
theorem query_foo_returns_foobar :
    Reachable fooFoobar fooFoobarView ∧ fooFoobar.dirs[Utf8.encode "foo"]?.isSome ∧
      ¬ ReturnsExactly id fooFoobar "foo" true ∧ ¬ ReturnsExactly id fooFoobar "foo" false := by
  have hfoo : fooFoobar.dirs[Utf8.encode "foo"]?.isSome := by decide
  have hc := fooFoobar_reachable.consistent
  refine ⟨fooFoobar_reachable, hfoo, fun h ↦ foobar_is_sibling ?_, fun h ↦ foobar_is_sibling ?_⟩
  · exact (hc.returnsExactly_recursive id (Or.inr (Or.inl hfoo))).mp h
  · exact (hc.returnsExactly_children id (Or.inr (Or.inl hfoo))).mp h

end HarddriveParty
