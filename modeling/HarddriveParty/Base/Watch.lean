import HarddriveParty.Base.OrderedTree
import Mathlib.Data.List.Perm.Subperm

/-!
# Watched trees

Library module. A subscription to the selected entries of an ordered tree first scans them in
key order and then takes the writes that came after it was made from a buffer. The scan reads
from a view of the tree that may be as old as the subscription or as new as the tree. Between
them, scan and buffer hold every selected entry of the tree that was not handed out. While the
scan goes on no write is taken, so a buffer of bounded size is full after so many writes.
-/

namespace Watch

/-- A write to one key of a tree. -/
inductive Write (α β : Type) where
  | insert (key : α) (value : β)
  | remove (key : α)
  deriving DecidableEq, Repr

variable {α β : Type} {cmp : α → α → Ordering}

/-- The key that is written to. -/
def Write.key : Write α β → α
  | insert key _ => key
  | remove key => key

/-- The entry that is inserted. -/
def Write.inserted : Write α β → Option (α × β)
  | insert key value => some (key, value)
  | remove _ => none

/-- The tree after a write. -/
def Write.apply [Std.TransCmp cmp] (t : Std.ExtTreeMap α β cmp) :
    Write α β → Std.ExtTreeMap α β cmp
  | insert key value => t.insert key value
  | remove key => t.erase key

/-- A scan of a tree: the entries it reads from, and the key it read last. -/
structure Scan (α β : Type) (cmp : α → α → Ordering) where
  view : Std.ExtTreeMap α β cmp
  last : Option α

/-- A subscription: which keys it selects, the scan until it is through, and the writes that
were not taken yet. -/
structure Subscription (α β : Type) (cmp : α → α → Ordering) where
  selects : α → Bool
  scan : Option (Scan α β cmp)
  buffer : List (Write α β)

/-- The key is behind the last one that was read. -/
def Scan.Behind (s : Scan α β cmp) (k : α) : Prop := ∀ last ∈ s.last, cmp last k = .lt

instance (s : Scan α β cmp) (k : α) : Decidable (s.Behind k) :=
  inferInstanceAs (Decidable (∀ last ∈ s.last, _))

/-- The selected entries behind the last one that was read. -/
def Scan.rest [Std.TransCmp cmp] (s : Scan α β cmp) (selects : α → Bool) : List (α × β) :=
  s.view.toList.filter fun kv ↦ selects kv.1 && decide (s.Behind kv.1)

namespace Subscription

/-- Subscribe to the selected keys of a tree. -/
def subscribe (t : Std.ExtTreeMap α β cmp) (selects : α → Bool) : Subscription α β cmp :=
  ⟨selects, some ⟨t, none⟩, []⟩

/-- A write is put into the buffer if its key is selected. -/
def deliver (s : Subscription α β cmp) (w : Write α β) : Subscription α β cmp :=
  if s.selects w.key then { s with buffer := s.buffer ++ [w] } else s

/-- The scan goes on in the tree as it is now. -/
def refresh (s : Subscription α β cmp) (t : Std.ExtTreeMap α β cmp) : Subscription α β cmp :=
  { s with scan := s.scan.map fun scan ↦ { scan with view := t } }

/-- Read one entry, end the scan, or take one write; an entry that was read or inserted is
handed out. -/
def poll [Std.TransCmp cmp] (s : Subscription α β cmp) :
    Option (α × β) × Subscription α β cmp :=
  match s.scan with
  | some scan =>
    match scan.rest s.selects with
    | [] => (none, { s with scan := none })
    | kv :: _ => (some kv, { s with scan := some { scan with last := some kv.1 } })
  | none =>
    match s.buffer with
    | [] => (none, s)
    | w :: buffer => (w.inserted, { s with buffer := buffer })

/-- There is nothing to hand out. -/
def Idle (s : Subscription α β cmp) : Prop := s.scan = none ∧ s.buffer = []

/-- The entry will be handed out: the scan comes to it, or its insertion is in the buffer. -/
def Pending [Std.TransCmp cmp] (s : Subscription α β cmp) (kv : α × β) : Prop :=
  (∃ scan, s.scan = some scan ∧ kv ∈ scan.rest s.selects) ∨ .insert kv.1 kv.2 ∈ s.buffer

/-- Every selected entry of the tree will be handed out or is among the given ones. -/
def Covers [Std.TransCmp cmp] (s : Subscription α β cmp) (t : Std.ExtTreeMap α β cmp)
    (handed : α × β → Prop) : Prop :=
  ∀ k v, t[k]? = some v → s.selects k = true → handed (k, v) ∨ s.Pending (k, v)

section Fields

variable {s : Subscription α β cmp}

@[simp] theorem selects_deliver (w : Write α β) : (s.deliver w).selects = s.selects := by
  unfold deliver
  split <;> rfl

@[simp] theorem scan_deliver (w : Write α β) : (s.deliver w).scan = s.scan := by
  unfold deliver
  split <;> rfl

@[simp] theorem selects_refresh (t : Std.ExtTreeMap α β cmp) :
    (s.refresh t).selects = s.selects := rfl

@[simp] theorem buffer_refresh (t : Std.ExtTreeMap α β cmp) :
    (s.refresh t).buffer = s.buffer := rfl

@[simp] theorem selects_poll [Std.TransCmp cmp] : s.poll.2.selects = s.selects := by
  unfold poll
  split
  · split <;> rfl
  · split <;> rfl

theorem length_buffer_poll_le [Std.TransCmp cmp] (s : Subscription α β cmp) :
    s.poll.2.buffer.length ≤ s.buffer.length := by
  unfold poll
  split
  · split <;> exact Nat.le_refl _
  · split
    · exact Nat.le_refl _
    · next w buffer hcons =>
      rw [hcons]
      exact Nat.le_succ _

/-- A write is found in the buffer if its key is selected. -/
theorem buffer_deliver (w : Write α β) :
    (s.deliver w).buffer = if s.selects w.key then s.buffer ++ [w] else s.buffer := by
  unfold deliver
  split <;> rfl

end Fields

end Subscription

section Rules

variable [Std.TransCmp cmp] {t : Std.ExtTreeMap α β cmp} {s : Subscription α β cmp}
  {scan : Scan α β cmp} {selects : α → Bool} {kv : α × β} {handed handed' : α × β → Prop}

namespace Subscription

/-- A delivery leaves what was going to be handed out. -/
theorem Pending.deliver (h : s.Pending kv) (w : Write α β) : (s.deliver w).Pending kv := by
  rcases h with ⟨scan, hscan, hrest⟩ | hbuffer
  · left
    refine ⟨scan, ?_, ?_⟩
    · rw [scan_deliver, hscan]
    · rw [selects_deliver]
      exact hrest
  · right
    rw [buffer_deliver]
    split
    · exact List.mem_append_left _ hbuffer
    · exact hbuffer

/-- After a delivery nothing else is going to be handed out than before and what was written. -/
theorem Pending.of_deliver {w : Write α β} (h : (s.deliver w).Pending kv) :
    s.Pending kv ∨ s.selects kv.1 = true ∧ w.inserted = some kv := by
  rcases h with ⟨scan, hscan, hrest⟩ | hbuffer
  · rw [scan_deliver] at hscan
    rw [selects_deliver] at hrest
    exact Or.inl (Or.inl ⟨scan, hscan, hrest⟩)
  · rw [buffer_deliver] at hbuffer
    split at hbuffer
    · next hw =>
      rcases List.mem_append.mp hbuffer with hold | hnew
      · exact Or.inl (Or.inr hold)
      · obtain rfl := List.mem_singleton.mp hnew
        exact Or.inr ⟨hw, rfl⟩
    · exact Or.inl (Or.inr hbuffer)

/-- What is handed out was going to be handed out. -/
theorem pending_of_poll (h : s.poll.1 = some kv) : s.Pending kv := by
  unfold Subscription.poll at h
  split at h
  · next scan hscan =>
    split at h
    · cases h
    · next first rest hcons =>
      cases h
      refine Or.inl ⟨scan, hscan, ?_⟩
      rw [hcons]
      exact List.mem_cons_self
  · split at h
    · cases h
    · next w buffer hcons =>
      cases w with
      | insert key value =>
        cases h
        refine Or.inr ?_
        rw [hcons]
        exact List.mem_cons_self
      | remove key => cases h

/-- Entries that are not in the tree need not be handed out. -/
theorem Covers.mono (h : s.Covers t handed)
    (hmono : ∀ k v, t[k]? = some v → s.selects k = true → handed (k, v) → handed' (k, v)) :
    s.Covers t handed' := by
  intro k v hv hsel
  exact (h k v hv hsel).imp_left (hmono k v hv hsel)

/-- Once there is nothing to hand out, every selected entry of the tree was. -/
theorem Covers.of_idle (h : s.Covers t handed) (hidle : s.Idle) {k : α} {v : β}
    (hv : t[k]? = some v) (hsel : s.selects k = true) : handed (k, v) := by
  rcases h k v hv hsel with hhanded | ⟨scan, hscan, -⟩ | hbuffer
  · exact hhanded
  · rw [hidle.1] at hscan
    cases hscan
  · rw [hidle.2] at hbuffer
    cases hbuffer

end Subscription

variable [Std.LawfulEqCmp cmp]

theorem Scan.mem_rest :
    kv ∈ scan.rest selects ↔
      scan.view[kv.1]? = some kv.2 ∧ selects kv.1 = true ∧ scan.Behind kv.1 := by
  rw [Scan.rest, List.mem_filter, Std.ExtTreeMap.mem_toList_iff_getElem?_eq_some,
    Bool.and_eq_true, decide_eq_true_eq]

/-- A write changes its key only. -/
theorem Write.getElem?_apply [DecidableEq α] (w : Write α β) (k : α) :
    (w.apply t)[k]? = if k = w.key then w.inserted.map Prod.snd else t[k]? := by
  cases w with
  | insert key value => exact OrderedTree.getElem?_insert t key k value
  | remove key => exact OrderedTree.getElem?_erase t key k

/-- An entry of the tree after a write was in it before, or is the one that was inserted. -/
theorem Write.of_getElem?_apply [DecidableEq α] {w : Write α β} {k : α} {v : β}
    (h : (w.apply t)[k]? = some v) : t[k]? = some v ∨ w.inserted = some (k, v) := by
  rw [Write.getElem?_apply] at h
  split at h
  · next hk =>
    cases w with
    | insert key value =>
      obtain rfl : k = key := hk
      cases h
      exact Or.inr rfl
    | remove key => cases h
  · exact Or.inl h

/-- What is inserted is in the tree. -/
theorem Write.getElem?_inserted [DecidableEq α] {w : Write α β} (h : w.inserted = some kv) :
    (w.apply t)[kv.1]? = some kv.2 := by
  cases w with
  | insert key value =>
    cases h
    exact (Write.getElem?_apply _ _).trans (if_pos rfl)
  | remove key => cases h

/-- What comes behind the first entry that is left to read is left after it was read. -/
theorem Scan.mem_rest_of_tail {rest : List (α × β)} (h : scan.rest selects = kv :: rest)
    {e : α × β} (he : e ∈ rest) :
    e ∈ ({ scan with last := some kv.1 } : Scan α β cmp).rest selects := by
  have hsorted : (scan.rest selects).Pairwise fun a b ↦ cmp a.1 b.1 = .lt :=
    scan.view.ordered_keys_toList.filter _
  have hmem : e ∈ scan.rest selects := by
    rw [h]
    exact List.mem_cons_of_mem _ he
  rw [h] at hsorted
  obtain ⟨hview, hsel, -⟩ := Scan.mem_rest.mp hmem
  refine Scan.mem_rest.mpr ⟨hview, hsel, ?_⟩
  intro last hlast
  cases hlast
  exact List.rel_of_pairwise_cons hsorted he

namespace Subscription

/-- What a new subscription will hand out is a selected entry of the tree. -/
theorem Pending.of_subscribe (h : (subscribe t selects).Pending kv) :
    selects kv.1 = true ∧ t[kv.1]? = some kv.2 := by
  rcases h with ⟨scan, hscan, hrest⟩ | hbuffer
  · cases hscan
    obtain ⟨hview, hsel, -⟩ := Scan.mem_rest.mp hrest
    exact ⟨hsel, hview⟩
  · cases hbuffer

/-- In a newer tree the scan comes to entries of that tree. -/
theorem Pending.of_refresh (h : (s.refresh t).Pending kv) :
    s.Pending kv ∨ s.selects kv.1 = true ∧ t[kv.1]? = some kv.2 := by
  rcases h with ⟨scan, hscan, hrest⟩ | hbuffer
  · obtain ⟨scan', -, rfl⟩ := Option.map_eq_some_iff.mp hscan
    obtain ⟨hview, hsel, -⟩ := Scan.mem_rest.mp hrest
    exact Or.inr ⟨hsel, hview⟩
  · exact Or.inl (Or.inr hbuffer)

/-- What is still going to be handed out after a poll was so before. -/
theorem Pending.of_poll (h : s.poll.2.Pending kv) : s.Pending kv := by
  unfold Subscription.poll at h
  split at h
  · next scan hscan =>
    split at h
    · rcases h with ⟨scan', hnone, -⟩ | hbuffer
      · cases hnone
      · exact Or.inr hbuffer
    · next first rest hcons =>
      rcases h with ⟨scan', hscan', hrest⟩ | hbuffer
      · cases hscan'
        -- behind the first entry there is nothing that was not behind the one before it
        obtain ⟨hview, hsel, hbehind⟩ := Scan.mem_rest.mp hrest
        have hfirst : first ∈ scan.rest s.selects := by
          rw [hcons]
          exact List.mem_cons_self
        refine Or.inl ⟨scan, hscan, Scan.mem_rest.mpr ⟨hview, hsel, fun last hlast ↦ ?_⟩⟩
        exact Std.TransCmp.lt_trans ((Scan.mem_rest.mp hfirst).2.2 last hlast)
          (hbehind first.1 rfl)
      · exact Or.inr hbuffer
  · next hscan =>
    split at h
    · exact h
    · next w buffer hcons =>
      rcases h with ⟨scan', hsome, -⟩ | hbuffer
      · cases hscan.symm.trans hsome
      · refine Or.inr ?_
        rw [hcons]
        exact List.mem_cons_of_mem _ hbuffer

/-- At first the scan comes to every entry. -/
theorem covers_subscribe (t : Std.ExtTreeMap α β cmp) (selects : α → Bool) :
    (subscribe t selects).Covers t handed := by
  intro k v hv hsel
  right
  left
  refine ⟨_, rfl, Scan.mem_rest.mpr ⟨hv, hsel, ?_⟩⟩
  intro last hlast
  cases hlast

/-- A write to the tree that is delivered leaves no entry out. -/
theorem Covers.write [DecidableEq α] (h : s.Covers t handed) (w : Write α β) :
    (s.deliver w).Covers (w.apply t) handed := by
  intro k v hv hsel
  rw [selects_deliver] at hsel
  rw [Write.getElem?_apply] at hv
  by_cases hk : k = w.key
  · rw [if_pos hk] at hv
    cases w with
    | insert key value =>
      obtain rfl : k = key := hk
      cases hv
      have hkey : s.selects (Write.insert k value).key = true := hsel
      right
      right
      rw [buffer_deliver, if_pos hkey]
      exact List.mem_append_right _ (List.mem_singleton.mpr rfl)
    | remove key => cases hv
  · rw [if_neg hk] at hv
    exact (h k v hv hsel).imp_right fun hp ↦ hp.deliver w

/-- Reading on in a newer tree leaves no entry out. -/
theorem Covers.refresh (h : s.Covers t handed) : (s.refresh t).Covers t handed := by
  intro k v hv hsel
  rcases h k v hv hsel with hhanded | ⟨scan, hscan, hrest⟩ | hbuffer
  · exact Or.inl hhanded
  · right
    left
    have hbehind : scan.Behind k := (Scan.mem_rest.mp hrest).2.2
    refine ⟨{ scan with view := t }, ?_, Scan.mem_rest.mpr ⟨hv, hsel, hbehind⟩⟩
    rw [Subscription.refresh, hscan]
    rfl
  · exact Or.inr (Or.inr hbuffer)

/-- What was going to be handed out is handed out now or still going to be. -/
theorem Pending.poll (h : s.Pending kv) : s.poll.1 = some kv ∨ s.poll.2.Pending kv := by
  unfold Subscription.poll
  split
  · next scan hscan =>
    rcases h with ⟨scan', hscan', hrest⟩ | hbuffer
    · obtain rfl : scan' = scan := Option.some.inj (hscan'.symm.trans hscan)
      split
      · next hnil =>
        rw [hnil] at hrest
        cases hrest
      · next first rest hcons =>
        rw [hcons] at hrest
        rcases List.mem_cons.mp hrest with rfl | hlater
        · exact Or.inl rfl
        · exact Or.inr (Or.inl ⟨_, rfl, Scan.mem_rest_of_tail hcons hlater⟩)
    · split
      · exact Or.inr (Or.inr hbuffer)
      · exact Or.inr (Or.inr hbuffer)
  · next hscan =>
    rcases h with ⟨scan', hscan', -⟩ | hbuffer
    · rw [hscan] at hscan'
      cases hscan'
    · split
      · next hnil =>
        rw [hnil] at hbuffer
        cases hbuffer
      · next w buffer hcons =>
        rw [hcons] at hbuffer
        rcases List.mem_cons.mp hbuffer with rfl | hlater
        · exact Or.inl rfl
        · exact Or.inr (Or.inr hlater)

/-- When an entry is handed out, the others are still going to be. -/
theorem Covers.poll (h : s.Covers t handed)
    (hnext : ∀ e, handed e ∨ s.poll.1 = some e → handed' e) : s.poll.2.Covers t handed' := by
  intro k v hv hsel
  rw [selects_poll] at hsel
  rcases h k v hv hsel with hhanded | hpending
  · exact Or.inl (hnext _ (Or.inl hhanded))
  · exact hpending.poll.imp_left fun hnow ↦ hnext _ (Or.inr hnow)

end Subscription

end Rules

/-! ### What is handed out, in order -/

section Order

variable {s : Subscription α β cmp} {inserted handed : List (α × β)}

namespace Subscription

/-- What was handed out: entries in increasing order of their keys, which the scan read, and
then a beginning of what was inserted since. The insertions that follow are in the buffer. -/
structure InOrder (s : Subscription α β cmp) (inserted handed scanned taken : List (α × β)) :
    Prop where
  split : handed = scanned ++ taken
  increasing : scanned.Pairwise fun a b ↦ cmp a.1 b.1 = .lt
  selected : ∀ e ∈ handed, s.selects e.1 = true
  later : inserted = taken ++ s.buffer.filterMap Write.inserted
  buffered : ∀ w ∈ s.buffer, s.selects w.key = true
  scanning : ∀ scan, s.scan = some scan → taken = [] ∧
    ∀ e ∈ scanned, ∀ k, scan.Behind k → cmp e.1 k = .lt

variable {scanned taken : List (α × β)}

/-- At first nothing was handed out. -/
theorem inOrder_subscribe (t : Std.ExtTreeMap α β cmp) (selects : α → Bool) :
    (subscribe t selects).InOrder [] [] [] [] where
  split := rfl
  increasing := List.Pairwise.nil
  selected := by simp
  later := rfl
  buffered := by simp [subscribe]
  scanning := fun _ _ ↦ ⟨rfl, by simp⟩

/-- A delivered insertion comes last. -/
theorem InOrder.deliver (h : s.InOrder inserted handed scanned taken) (w : Write α β) :
    (s.deliver w).InOrder
      (inserted ++ if s.selects w.key then w.inserted.toList else []) handed scanned taken where
  split := h.split
  increasing := h.increasing
  selected := by
    rw [selects_deliver]
    exact h.selected
  later := by
    rw [buffer_deliver, h.later, List.append_assoc]
    split
    · rw [List.filterMap_append]
      cases w with
      | insert key value => rfl
      | remove key => rfl
    · rw [List.append_nil]
  buffered := by
    rw [buffer_deliver, selects_deliver]
    split
    · next hw =>
      intro w' hw'
      rcases List.mem_append.mp hw' with hold | hnew
      · exact h.buffered w' hold
      · rw [List.mem_singleton.mp hnew]
        exact hw
    · exact h.buffered
  scanning := by
    rw [scan_deliver]
    exact h.scanning

/-- Reading on in a newer tree keeps the order. -/
theorem InOrder.refresh (h : s.InOrder inserted handed scanned taken)
    (t : Std.ExtTreeMap α β cmp) : (s.refresh t).InOrder inserted handed scanned taken where
  split := h.split
  increasing := h.increasing
  selected := h.selected
  later := h.later
  buffered := h.buffered
  scanning := by
    intro scan hscan
    obtain ⟨scan', hscan', rfl⟩ := Option.map_eq_some_iff.mp hscan
    exact h.scanning scan' hscan'

/-- What a poll hands out comes behind what was handed out before. -/
theorem InOrder.poll [Std.TransCmp cmp] [Std.LawfulEqCmp cmp]
    (h : s.InOrder inserted handed scanned taken) :
    ∃ scanned taken, s.poll.2.InOrder inserted (handed ++ s.poll.1.toList) scanned taken := by
  unfold Subscription.poll
  split
  · next scan hscan =>
    obtain ⟨rfl, hbefore⟩ := h.scanning scan hscan
    split
    · refine ⟨scanned, [], ?_⟩
      rw [Option.toList_none, List.append_nil]
      exact { h with scanning := fun _ hnone ↦ by cases hnone }
    · next kv rest hcons =>
      have hmem : kv ∈ scan.rest s.selects := by
        rw [hcons]
        exact List.mem_cons_self
      obtain ⟨-, hsel, hbehind⟩ := Scan.mem_rest.mp hmem
      have hless : ∀ e ∈ scanned, cmp e.1 kv.1 = .lt := fun e he ↦ hbefore e he _ hbehind
      refine ⟨scanned ++ [kv], [], ?_⟩
      refine
        { split := by simp [h.split]
          increasing := ?_
          selected := ?_
          later := h.later
          buffered := h.buffered
          scanning := ?_ }
      · rw [List.pairwise_append]
        refine ⟨h.increasing, List.pairwise_singleton _ _, fun a ha b hb ↦ ?_⟩
        rw [List.mem_singleton.mp hb]
        exact hless a ha
      · intro e he
        rcases List.mem_append.mp he with hold | hnew
        · exact h.selected e hold
        · rw [List.mem_singleton.mp hnew]
          exact hsel
      · rintro scan' hscan'
        cases hscan'
        refine ⟨rfl, fun e he k hk ↦ ?_⟩
        have hkv : cmp kv.1 k = .lt := hk kv.1 rfl
        rcases List.mem_append.mp he with hold | hnew
        · exact Std.TransCmp.lt_trans (hless e hold) hkv
        · rw [List.mem_singleton.mp hnew]
          exact hkv
  · next hscan =>
    split
    · refine ⟨scanned, taken, ?_⟩
      rw [Option.toList_none, List.append_nil]
      exact h
    · next w buffer hcons =>
      have hlater := h.later
      have hbuffered := h.buffered
      rw [hcons] at hlater hbuffered
      refine ⟨scanned, taken ++ w.inserted.toList, ?_⟩
      refine
        { split := by rw [h.split, List.append_assoc]
          increasing := h.increasing
          selected := ?_
          later := ?_
          buffered := fun w' hw' ↦ hbuffered w' (List.mem_cons_of_mem _ hw')
          scanning := fun scan hsome ↦ by cases hscan.symm.trans hsome }
      · intro e he
        rcases List.mem_append.mp he with hold | hnew
        · exact h.selected e hold
        · have hw := hbuffered w List.mem_cons_self
          cases w with
          | insert key value =>
            cases List.mem_singleton.mp hnew
            exact hw
          | remove key => cases hnew
      · rw [hlater, List.append_assoc]
        cases w with
        | insert key value => rfl
        | remove key => rfl

/-- Entries of one key are handed out at most once by the scan and once for each insertion. -/
theorem InOrder.count_le [Std.TransCmp cmp] [BEq α] [LawfulBEq α]
    (h : s.InOrder inserted handed scanned taken) (k : α) :
    (handed.map Prod.fst).count k ≤ 1 + (inserted.map Prod.fst).count k := by
  have hnodup : (scanned.map Prod.fst).Nodup := by
    rw [List.Nodup, List.pairwise_map]
    refine h.increasing.imp fun {a b} hab he ↦ ?_
    have hself : cmp b.1 b.1 = .eq := Std.ReflCmp.compare_self
    rw [he, hself] at hab
    cases hab
  have hscanned := List.nodup_iff_count_le_one.mp hnodup k
  rw [h.split, h.later]
  simp only [List.map_append, List.count_append]
  omega

end Subscription

end Order

/-! ### The writes that wait for the scan -/

section Backlog

variable [Std.TransCmp cmp] {start t : Std.ExtTreeMap α β cmp} {s : Subscription α β cmp}
  {selects : α → Bool}

/-- The selected entries of a tree. -/
def selected (t : Std.ExtTreeMap α β cmp) (selects : α → Bool) : List (α × β) :=
  t.toList.filter fun kv ↦ selects kv.1

namespace Subscription

/-- The subscription scans, and every selected entry that was in a tree at the start is still in
it, or a write to its key is in the buffer. -/
structure Backlog (s : Subscription α β cmp) (start t : Std.ExtTreeMap α β cmp) : Prop where
  scanning : s.scan ≠ none
  written : ∀ k v, start[k]? = some v → s.selects k = true →
    t[k]? = some v ∨ ∃ w ∈ s.buffer, w.key = k

theorem backlog_subscribe (t : Std.ExtTreeMap α β cmp) (selects : α → Bool) :
    (subscribe t selects).Backlog t t where
  scanning := fun hnone ↦ by cases hnone
  written := fun _ _ hv _ ↦ Or.inl hv

theorem Backlog.refresh (h : s.Backlog start t) (t' : Std.ExtTreeMap α β cmp) :
    (s.refresh t').Backlog start t where
  scanning := fun hnone ↦ h.scanning (Option.map_eq_none_iff.mp hnone)
  written := h.written

variable [Std.LawfulEqCmp cmp]

theorem nodup_selected (t : Std.ExtTreeMap α β cmp) (selects : α → Bool) :
    ((selected t selects).map Prod.fst).Nodup :=
  (OrderedTree.nodup_keys t).sublist (List.filter_sublist.map _)

theorem mem_selected {kv : α × β} :
    kv ∈ selected t selects ↔ t[kv.1]? = some kv.2 ∧ selects kv.1 = true := by
  rw [selected, List.mem_filter, Std.ExtTreeMap.mem_toList_iff_getElem?_eq_some]

/-- A delivered write leaves the other entries, and is found in the buffer. -/
theorem Backlog.write [DecidableEq α] (h : s.Backlog start t) (w : Write α β) :
    (s.deliver w).Backlog start (w.apply t) where
  scanning := by
    rw [scan_deliver]
    exact h.scanning
  written := by
    intro k v hv hsel
    rw [selects_deliver] at hsel
    rw [buffer_deliver]
    by_cases hk : k = w.key
    · rw [if_pos (hk ▸ hsel)]
      exact Or.inr ⟨w, List.mem_append_right _ (List.mem_singleton.mpr rfl), hk.symm⟩
    · rw [Write.getElem?_apply, if_neg hk]
      refine (h.written k v hv hsel).imp_right fun hwritten ↦ ?_
      obtain ⟨w', hw', hkey⟩ := hwritten
      split
      · exact ⟨w', List.mem_append_left _ hw', hkey⟩
      · exact ⟨w', hw', hkey⟩

/-- Selected entries whose keys were all written to are not more than the writes in the buffer. -/
private theorem length_le_buffer {entries : List (α × β)}
    (hsub : entries.Sublist (selected start s.selects))
    (hwritten : ∀ kv ∈ entries, ∃ w ∈ s.buffer, w.key = kv.1) :
    entries.length ≤ s.buffer.length := by
  have hnodup : (entries.map Prod.fst).Nodup :=
    (nodup_selected start s.selects).sublist (hsub.map Prod.fst)
  have hle := (List.Nodup.subperm hnodup fun k hk ↦ by
    obtain ⟨kv, hkv, rfl⟩ := List.mem_map.mp hk
    obtain ⟨w, hw, hkey⟩ := hwritten kv hkv
    exact List.mem_map.mpr ⟨w, hw, hkey⟩).length_le
  rwa [List.length_map, List.length_map] at hle

/-- All of the entries but as many as writes are in the buffer are still in the tree. -/
theorem Backlog.length_le [DecidableEq β] (h : s.Backlog start t) :
    (selected start s.selects).length ≤
      ((selected start s.selects).filter fun kv ↦ t[kv.1]? = some kv.2).length +
        s.buffer.length := by
  rw [List.length_eq_length_filter_add (l := selected start s.selects)
    fun kv ↦ decide (t[kv.1]? = some kv.2)]
  refine Nat.add_le_add_left (length_le_buffer List.filter_sublist fun kv hkv ↦ ?_) _
  obtain ⟨hmem, hleft⟩ := List.mem_filter.mp hkv
  obtain ⟨hstart, hsel⟩ := mem_selected.mp hmem
  exact (h.written kv.1 kv.2 hstart hsel).resolve_left (by simpa using hleft)

/-- As long as the buffer is shorter than the backlog, and what was handed out left the tree, the
scan does not come to its end. -/
theorem Backlog.poll (h : s.Backlog start t) (hcovers : s.Covers t fun _ ↦ False)
    (hroom : s.buffer.length < (selected start s.selects).length) :
    s.poll.2.Backlog start t := by
  obtain ⟨scan, hscan⟩ := Option.ne_none_iff_exists'.mp h.scanning
  unfold Subscription.poll
  rw [hscan]
  dsimp only
  split
  · next hnil =>
    -- nothing is left to scan, so what is still in the tree was inserted since
    have hall : (selected start s.selects).length ≤ s.buffer.length := by
      refine length_le_buffer (List.Sublist.refl _) fun kv hkv ↦ ?_
      obtain ⟨hstart, hsel⟩ := mem_selected.mp hkv
      rcases h.written kv.1 kv.2 hstart hsel with hstill | hwritten
      · rcases hcovers kv.1 kv.2 hstill hsel with hfalse | ⟨scan', hscan', hrest⟩ | hbuffer
        · exact hfalse.elim
        · obtain rfl : scan' = scan := Option.some.inj (hscan'.symm.trans hscan)
          rw [hnil] at hrest
          cases hrest
        · exact ⟨_, hbuffer, rfl⟩
      · exact hwritten
    omega
  · exact ⟨fun hnone ↦ (by cases hnone), h.written⟩

end Subscription

end Backlog

end Watch
