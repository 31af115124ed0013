import HarddriveParty.Base.Bytes
import Mathlib.Algebra.BigOperators.Group.List.Basic
import Mathlib.Algebra.Order.BigOperators.Group.List
import Mathlib.Data.List.Nodup

/-!
# Ordered key/value trees

Library module. A tree keeps its entries ordered by key, each key once. Over the ordered
maps of the standard library it adds a read-modify-write of one key, the removal of a list
of keys, the scan of a key prefix, and weights: the sum of a number over all entries, with
the rules that say how each operation changes it.
-/

namespace OrderedTree

section General

variable {α β : Type} {cmp : α → α → Ordering} [Std.TransCmp cmp]

/-- Replace the value of one key by a function of its old value; `none` clears the key. -/
def update (t : Std.ExtTreeMap α β cmp) (k : α) (f : Option β → Option β) :
    Std.ExtTreeMap α β cmp :=
  match f t[k]? with
  | some v => t.insert k v
  | none => t.erase k

/-- Remove the keys of a list one after another. -/
def eraseKeys (t : Std.ExtTreeMap α β cmp) (ks : List α) : Std.ExtTreeMap α β cmp :=
  ks.foldl (fun t k ↦ t.erase k) t

/-- The sum of a number over all entries. -/
def weight (t : Std.ExtTreeMap α β cmp) (f : α → β → Nat) : Nat :=
  (t.toList.map fun kv ↦ f kv.1 kv.2).sum

/-- Weights add up entry by entry. -/
theorem weight_add (t : Std.ExtTreeMap α β cmp) (f g : α → β → Nat) :
    weight t (fun k v ↦ f k v + g k v) = weight t f + weight t g := by
  unfold weight
  exact List.sum_map_add

/-- Keeping some of the entries keeps their weight. -/
theorem weight_filter (t : Std.ExtTreeMap α β cmp) (keep : α → Bool) (f : α → β → Nat) :
    weight (t.filter fun k _ ↦ keep k) f =
      weight t fun k v ↦ if keep k then f k v else 0 := by
  unfold weight
  rw [Std.ExtTreeMap.toList_filter]
  induction t.toList with
  | nil => rfl
  | cons kv l ih =>
    cases hk : keep kv.1 with
    | true => simp [hk, ih]
    | false => simp [hk, ih]

/-- The weight of some of the entries is a sum over these. -/
theorem weight_ite (t : Std.ExtTreeMap α β cmp) (sel : α → Bool) (f : α → β → Nat) :
    weight t (fun k v ↦ if sel k then f k v else 0) =
      ((t.toList.filter fun kv ↦ sel kv.1).map fun kv ↦ f kv.1 kv.2).sum := by
  rw [← weight_filter, weight, Std.ExtTreeMap.toList_filter]

variable [Std.LawfulEqCmp cmp]

/-- An update changes its key only. -/
theorem getElem?_update [DecidableEq α] (t : Std.ExtTreeMap α β cmp) (k j : α)
    (f : Option β → Option β) :
    (update t k f)[j]? = if j = k then f t[k]? else t[j]? := by
  unfold update
  split
  · next v hv =>
    rw [Std.ExtTreeMap.getElem?_insert]
    by_cases hj : j = k
    · subst j
      simp [hv]
    · simp [hj, Ne.symm hj]
  · next hv =>
    rw [Std.ExtTreeMap.getElem?_erase]
    by_cases hj : j = k
    · subst j
      simp [hv]
    · simp [hj, Ne.symm hj]

/-- An insertion changes its key only. -/
theorem getElem?_insert [DecidableEq α] (t : Std.ExtTreeMap α β cmp) (k j : α) (v : β) :
    (t.insert k v)[j]? = if j = k then some v else t[j]? := by
  rw [Std.ExtTreeMap.getElem?_insert]
  by_cases hj : j = k
  · simp [hj]
  · simp [hj, Ne.symm hj]

/-- A removal changes its key only. -/
theorem getElem?_erase [DecidableEq α] (t : Std.ExtTreeMap α β cmp) (k j : α) :
    (t.erase k)[j]? = if j = k then none else t[j]? := by
  rw [Std.ExtTreeMap.getElem?_erase]
  by_cases hj : j = k
  · simp [hj]
  · simp [hj, Ne.symm hj]

/-- An insertion under a key with a property keeps a property of all keys. -/
theorem forall_keys_insert [DecidableEq α] {t : Std.ExtTreeMap α β cmp} {P : α → Prop}
    (h : ∀ j, t[j]?.isSome → P j) {k : α} (hk : P k) (v : β) (j : α)
    (hj : (t.insert k v)[j]?.isSome) : P j := by
  rw [getElem?_insert] at hj
  by_cases he : j = k
  · rw [he]
    exact hk
  · rw [if_neg he] at hj
    exact h j hj

/-- A removal keeps a property of all keys. -/
theorem forall_keys_erase [DecidableEq α] {t : Std.ExtTreeMap α β cmp} {P : α → Prop}
    (h : ∀ j, t[j]?.isSome → P j) (k j : α) (hj : (t.erase k)[j]?.isSome) : P j := by
  rw [getElem?_erase] at hj
  by_cases he : j = k
  · rw [if_pos he] at hj
    cases hj
  · rw [if_neg he] at hj
    exact h j hj

/-- After the removal of a list of keys exactly the other keys are left. -/
theorem getElem?_eraseKeys [DecidableEq α] (t : Std.ExtTreeMap α β cmp) (ks : List α) (j : α) :
    (eraseKeys t ks)[j]? = if j ∈ ks then none else t[j]? := by
  unfold eraseKeys
  induction ks generalizing t with
  | nil => simp
  | cons k ks ih =>
    rw [List.foldl_cons, ih, getElem?_erase]
    by_cases hj : j = k
    · simp [hj]
    · simp [hj]

/-- The entries of a tree have pairwise distinct keys. -/
theorem nodup_keys (t : Std.ExtTreeMap α β cmp) : (t.toList.map Prod.fst).Nodup := by
  rw [List.Nodup, List.pairwise_map]
  refine t.distinct_keys_toList.imp fun {a b} hab he ↦ hab ?_
  rw [he]
  exact Std.ReflCmp.compare_self

/-- The entries of a tree are pairwise distinct. -/
theorem nodup_toList (t : Std.ExtTreeMap α β cmp) : t.toList.Nodup :=
  List.Nodup.of_map _ (nodup_keys t)

/-- A new key adds one entry. -/
theorem toList_insert_perm (t : Std.ExtTreeMap α β cmp) (k : α) (v : β) (h : t[k]? = none) :
    (t.insert k v).toList.Perm ((k, v) :: t.toList) := by
  have hk : ∀ w, (k, w) ∉ t.toList := by
    intro w hw
    rw [Std.ExtTreeMap.mem_toList_iff_getElem?_eq_some, h] at hw
    cases hw
  refine (List.perm_ext_iff_of_nodup (nodup_toList _)
    (List.nodup_cons.mpr ⟨hk v, nodup_toList t⟩)).mpr ?_
  classical
  rintro ⟨j, w⟩
  rw [Std.ExtTreeMap.mem_toList_iff_getElem?_eq_some, getElem?_insert, List.mem_cons,
    Std.ExtTreeMap.mem_toList_iff_getElem?_eq_some, Prod.mk.injEq]
  by_cases hj : j = k
  · subst j
    simp [h, eq_comm]
  · simp [hj]

/-- A new key adds the weight of its entry. -/
theorem weight_insert (t : Std.ExtTreeMap α β cmp) (f : α → β → Nat) (k : α) (v : β)
    (h : t[k]? = none) : weight (t.insert k v) f = f k v + weight t f := by
  rw [weight, ((toList_insert_perm t k v h).map _).sum_eq, List.map_cons, List.sum_cons, weight]

/-- An insertion adds the weight of the new entry and takes away that of the old one. -/
theorem weight_insert_add (t : Std.ExtTreeMap α β cmp) (f : α → β → Nat) (k : α) (v : β) :
    weight (t.insert k v) f + t[k]?.elim 0 (f k) = weight t f + f k v := by
  classical
  have hnone : (t.erase k)[k]? = none := by rw [getElem?_erase, if_pos rfl]
  have hinsert : ∀ w, ((t.erase k).insert k w) = t.insert k w := by
    intro w
    apply Std.ExtTreeMap.ext_getElem?
    intro j
    rw [getElem?_insert, getElem?_insert, getElem?_erase]
    split
    · rfl
    · rfl
  have hnew : weight (t.insert k v) f = f k v + weight (t.erase k) f := by
    rw [← hinsert, weight_insert _ f k v hnone]
  cases hold : t[k]? with
  | none =>
    have hsame : t.erase k = t := by
      apply Std.ExtTreeMap.ext_getElem?
      intro j
      rw [getElem?_erase]
      split
      · next hj => rw [hj, hold]
      · rfl
    rw [hnew, hsame, Option.elim_none]
    omega
  | some old =>
    have hback : t.insert k old = t := by
      apply Std.ExtTreeMap.ext_getElem?
      intro j
      rw [getElem?_insert]
      split
      · next hj => rw [hj, hold]
      · rfl
    have hweight := weight_insert (t.erase k) f k old hnone
    rw [hinsert, hback] at hweight
    rw [hnew, Option.elim_some]
    omega

/-- The weight depends on the entries only. -/
theorem weight_congr {t : Std.ExtTreeMap α β cmp} {f g : α → β → Nat}
    (h : ∀ k v, t[k]? = some v → f k v = g k v) : weight t f = weight t g := by
  unfold weight
  congr 1
  refine List.map_congr_left fun kv hkv ↦ ?_
  exact h kv.1 kv.2 (Std.ExtTreeMap.mem_toList_iff_getElem?_eq_some.mp hkv)

/-- An entrywise bound bounds the weight. -/
theorem weight_mono {t : Std.ExtTreeMap α β cmp} {f g : α → β → Nat}
    (h : ∀ k v, t[k]? = some v → f k v ≤ g k v) : weight t f ≤ weight t g := by
  unfold weight
  refine List.sum_le_sum fun kv hkv ↦ ?_
  exact h kv.1 kv.2 (Std.ExtTreeMap.mem_toList_iff_getElem?_eq_some.mp hkv)

/-- A weight that vanishes on every entry is zero. -/
theorem weight_eq_zero {t : Std.ExtTreeMap α β cmp} {f : α → β → Nat}
    (h : ∀ k v, t[k]? = some v → f k v = 0) : weight t f = 0 := by
  rw [weight_congr h]
  unfold weight
  simp

/-- The entries that are kept and those that are dropped make up the whole weight. -/
theorem weight_filter_add (t : Std.ExtTreeMap α β cmp) (keep : α → Bool) (f : α → β → Nat) :
    weight (t.filter fun k _ ↦ keep k) f + weight t (fun k v ↦ if keep k then 0 else f k v) =
      weight t f := by
  rw [weight_filter, ← weight_add]
  refine weight_congr fun k v _ ↦ ?_
  split
  · exact Nat.add_zero _
  · exact Nat.zero_add _

end General

section Prefix

variable {β : Type}

/-- The entries whose key starts with `p`, in key order. -/
def scanPrefix (t : Std.ExtTreeMap Bytes β compare) (p : Bytes) : List (Bytes × β) :=
  t.toList.filter fun kv ↦ p.isPrefixOf kv.1

/-- A scan finds exactly the entries whose key has the prefix. -/
theorem mem_scanPrefix {t : Std.ExtTreeMap Bytes β compare} {p k : Bytes} {v : β} :
    (k, v) ∈ scanPrefix t p ↔ t[k]? = some v ∧ p <+: k := by
  rw [scanPrefix, List.mem_filter, Std.ExtTreeMap.mem_toList_iff_getElem?_eq_some,
    List.isPrefixOf_iff_prefix]

/-- A scan finds each entry once. -/
theorem nodup_scanPrefix (t : Std.ExtTreeMap Bytes β compare) (p : Bytes) :
    (scanPrefix t p).Nodup := (nodup_toList t).filter _

/-- A scan depends on the entries with the prefix only. -/
theorem scanPrefix_congr {t t' : Std.ExtTreeMap Bytes β compare} {p : Bytes}
    (h : ∀ k, p <+: k → t[k]? = t'[k]?) : scanPrefix t p = scanPrefix t' p := by
  have hfilter : t.filter (fun k _ ↦ p.isPrefixOf k) = t'.filter fun k _ ↦ p.isPrefixOf k := by
    ext k v
    rw [Std.ExtTreeMap.getElem?_filter', Std.ExtTreeMap.getElem?_filter']
    by_cases hp : p <+: k
    · rw [h k hp]
    · have hnot : p.isPrefixOf k = false := by
        rwa [← Bool.not_eq_true, List.isPrefixOf_iff_prefix]
      simp [hnot]
  have hlist := congrArg Std.ExtTreeMap.toList hfilter
  rwa [Std.ExtTreeMap.toList_filter, Std.ExtTreeMap.toList_filter] at hlist

/-- Byte strings of one length are ordered as the numbers they are the digits of. -/
theorem ofBe_lt_of_compare {a b : Bytes} (hlen : a.length = b.length)
    (h : compare a b = .lt) : Bytes.ofBe a < Bytes.ofBe b := by
  induction a generalizing b with
  | nil =>
    rw [List.eq_nil_of_length_eq_zero hlen.symm] at h
    cases h
  | cons c a ih =>
    obtain ⟨d, b, rfl⟩ := List.exists_cons_of_length_eq_add_one hlen.symm
    have hrest : a.length = b.length := Nat.succ_inj.mp hlen
    have ha := Bytes.ofBe_lt a
    have hb := Bytes.ofBe_lt b
    rw [Bytes.ofBe_cons, Bytes.ofBe_cons, hrest]
    rw [hrest] at ha
    rw [List.compare_cons_cons] at h
    cases hcd : compare c d with
    | lt =>
      -- a smaller leading digit outweighs all that follow
      have hlt : c.toNat + 1 ≤ d.toNat := compareOfLessAndEq_eq_lt.mp hcd
      have hmul := Nat.mul_le_mul_right (256 ^ b.length) hlt
      rw [Nat.add_one_mul] at hmul
      omega
    | eq =>
      rw [hcd] at h
      rw [Std.LawfulEqCmp.eq_of_compare hcd]
      exact Nat.add_lt_add_left (ih hrest h) _
    | gt =>
      rw [hcd] at h
      cases h

/-- A key is not before its own beginnings. -/
theorem compare_ne_lt_of_isPrefix {p k : Bytes} (h : p <+: k) : compare k p ≠ .lt := by
  induction p generalizing k with
  | nil =>
    cases k with
    | nil => decide
    | cons c k => simp
  | cons c p ih =>
    obtain ⟨t, rfl⟩ := h
    have hc : compare c c = .eq := Std.ReflCmp.compare_self
    rw [List.cons_append, List.compare_cons_cons, hc]
    exact ih (List.prefix_append p t)

/-- A key stands first among the entries that a scan for it finds. -/
theorem head?_scanPrefix {t : Std.ExtTreeMap Bytes β compare} {p : Bytes} {v : β}
    (h : t[p]? = some v) : (scanPrefix t p).head? = some (p, v) := by
  have hmem : (p, v) ∈ scanPrefix t p := mem_scanPrefix.mpr ⟨h, List.prefix_rfl⟩
  have hsorted : (scanPrefix t p).Pairwise fun a b ↦ compare a.1 b.1 = .lt :=
    t.ordered_keys_toList.filter _
  cases hs : scanPrefix t p with
  | nil =>
    rw [hs] at hmem
    cases hmem
  | cons first rest =>
    have hfirst : p <+: first.1 := by
      have hin : (first.1, first.2) ∈ scanPrefix t p := by
        rw [hs]
        exact List.mem_cons_self
      exact (mem_scanPrefix.mp hin).2
    rw [hs] at hmem hsorted
    rcases List.mem_cons.mp hmem with he | hrest
    · rw [← he]
      rfl
    · exact absurd (List.rel_of_pairwise_cons hsorted hrest) (compare_ne_lt_of_isPrefix hfirst)

/-- Removing the keys that a scan finds and a test selects leaves the other entries. -/
theorem eraseKeys_scanPrefix (t : Std.ExtTreeMap Bytes β compare) (p : Bytes)
    (sel : Bytes → Bool) (h : ∀ k, sel k = true → p <+: k) :
    eraseKeys t (((scanPrefix t p).map Prod.fst).filter sel) =
      t.filter fun k _ ↦ !sel k := by
  apply Std.ExtTreeMap.ext_getElem?
  intro j
  rw [getElem?_eraseKeys, Std.ExtTreeMap.getElem?_filter']
  have hmem : j ∈ ((scanPrefix t p).map Prod.fst).filter sel ↔
      (∃ v, t[j]? = some v) ∧ sel j = true := by
    rw [List.mem_filter, List.mem_map]
    constructor
    · rintro ⟨⟨⟨k, v⟩, hkv, rfl⟩, hsel⟩
      exact ⟨⟨v, (mem_scanPrefix.mp hkv).1⟩, hsel⟩
    · rintro ⟨⟨v, hv⟩, hsel⟩
      exact ⟨⟨(j, v), mem_scanPrefix.mpr ⟨hv, h j hsel⟩, rfl⟩, hsel⟩
  cases hsel : sel j with
  | true =>
    cases ht : t[j]? with
    | none => simp
    | some v => simp [hmem, hsel, ht]
  | false =>
    rw [if_neg (fun hj ↦ by simp [hsel] at hj)]
    cases t[j]? with
    | none => rfl
    | some v => rfl

end Prefix

end OrderedTree
