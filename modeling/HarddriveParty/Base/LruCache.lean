import Mathlib.Data.List.Nodup

/-!
# Caches of bounded size

Library module. A cache holds one value for each of a bounded number of keys and forgets the
key that was least recently used. What is read from a cache was put there under the key.
-/

/-- The values of at most `capacity` keys, most recently used first. -/
structure LruCache (K V : Type) (capacity : Nat) where
  entries : List (K × V)
  nodup : (entries.map Prod.fst).Nodup
  length_le : entries.length ≤ capacity

namespace LruCache

variable {K V : Type} [DecidableEq K] {capacity : Nat}

/-- A cache without entries. -/
def empty : LruCache K V capacity := ⟨[], List.nodup_nil, Nat.zero_le _⟩

/-- The entries under other keys. -/
def others (c : LruCache K V capacity) (k : K) : List (K × V) :=
  c.entries.filter fun e ↦ decide (e.1 ≠ k)

/-- Put a value under a key, in front of the other entries, of which the last one is left out
when there is no room. -/
def put (c : LruCache K V capacity) (k : K) (v : V) : LruCache K V capacity where
  entries := ((k, v) :: c.others k).take capacity
  nodup := by
    have hothers : ((c.others k).map Prod.fst).Nodup :=
      c.nodup.sublist (List.filter_sublist.map Prod.fst)
    have hk : k ∉ (c.others k).map Prod.fst := by
      intro hmem
      obtain ⟨e, he, rfl⟩ := List.mem_map.mp hmem
      simp [others] at he
    have hcons : (((k, v) :: c.others k).map Prod.fst).Nodup :=
      List.nodup_cons.mpr ⟨hk, hothers⟩
    exact hcons.sublist ((List.take_sublist _ _).map Prod.fst)
  length_le := by
    rw [List.length_take]
    exact Nat.min_le_left _ _

/-- The value under a key, and the cache in which the key has just been used. -/
def get (c : LruCache K V capacity) (k : K) : Option V × LruCache K V capacity :=
  match c.entries.find? fun e ↦ decide (e.1 = k) with
  | some e => (some e.2, c.put k e.2)
  | none => (none, c)

variable {c : LruCache K V capacity} {k : K} {v : V} {e : K × V}

/-- What is in the cache after a value is put there was there before, or is the new entry. -/
theorem mem_put (h : e ∈ (c.put k v).entries) : e = (k, v) ∨ e ∈ c.entries := by
  rcases List.mem_cons.mp (List.mem_of_mem_take h) with h | h
  · exact Or.inl h
  · exact Or.inr (List.mem_of_mem_filter h)

/-- What is read is in the cache. -/
theorem mem_of_get (h : (c.get k).1 = some v) : (k, v) ∈ c.entries := by
  unfold get at h
  split at h
  · next e he =>
    cases h
    have hmem := List.mem_of_find?_eq_some he
    have hk : e.1 = k := by simpa using List.find?_some he
    rwa [← hk]
  · cases h

/-- Reading adds nothing to the cache. -/
theorem mem_get (h : e ∈ (c.get k).2.entries) : e ∈ c.entries := by
  unfold get at h
  split at h
  · next e' he =>
    have hmem := List.mem_of_find?_eq_some he
    have hk : e'.1 = k := by simpa using List.find?_some he
    rcases mem_put h with rfl | h
    · rwa [← hk]
    · exact h
  · exact h

omit [DecidableEq K] in
/-- Nothing is in an empty cache. -/
theorem not_mem_empty : e ∉ (empty : LruCache K V capacity).entries := List.not_mem_nil

end LruCache
