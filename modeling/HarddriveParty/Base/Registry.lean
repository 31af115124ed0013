import Mathlib.Logic.Function.Basic

/-!
# A registry with owners

Library module. Parties enter values under keys, each at most one at a time, and take them out
again; an entry can be replaced by another party. A party takes out only its own value, so an
entry always belongs to a party that has not left. When a key is entered only while it is free,
every party also keeps its entry until it leaves.
-/

/-- The entries, and for each party the key and the value that it has entered and not taken out. -/
structure Registry (ι κ ν : Type) where
  entry : κ → Option ν
  holds : ι → Option (κ × ν)

namespace Registry

variable {ι κ ν : Type} [DecidableEq ι] [DecidableEq κ]

/-- A party enters a value, in place of the one under the key if there is one. -/
def enter (r : Registry ι κ ν) (i : ι) (k : κ) (v : ν) : Registry ι κ ν where
  entry := Function.update r.entry k (some v)
  holds := Function.update r.holds i (some (k, v))

/-- A party takes out the entry of its key, if it is still its value, and holds it no more. -/
def leave [DecidableEq ν] (r : Registry ι κ ν) (i : ι) (k : κ) (v : ν) : Registry ι κ ν where
  entry := if r.entry k = some v then Function.update r.entry k none else r.entry
  holds := Function.update r.holds i none

/-- Every entry belongs to a party. -/
def Owned (r : Registry ι κ ν) : Prop := ∀ k v, r.entry k = some v → ∃ i, r.holds i = some (k, v)

/-- Every party has its entry, and no other party holds its key. -/
structure Exclusive (r : Registry ι κ ν) : Prop where
  entered : ∀ i k v, r.holds i = some (k, v) → r.entry k = some v
  unique : ∀ i j k v w, r.holds i = some (k, v) → r.holds j = some (k, w) → i = j

/-- What one party does: enter a value, take its value out, or nothing. -/
inductive Moves [DecidableEq ν] (r : Registry ι κ ν) : Registry ι κ ν → Prop where
  | idle : Moves r r
  | enter (i : ι) (k : κ) (v : ν) (hfree : r.holds i = none) : Moves r (r.enter i k v)
  | leave (i : ι) (k : κ) (v : ν) (hi : r.holds i = some (k, v)) : Moves r (r.leave i k v)

variable {r r' : Registry ι κ ν} {i : ι} {k : κ} {v : ν}

theorem leave_entry_eq [DecidableEq ν] (r : Registry ι κ ν) (i : ι) (k : κ) (v : ν) (k' : κ) :
    (r.leave i k v).entry k' =
      if k' = k ∧ r.entry k = some v then none else r.entry k' := by
  unfold leave
  by_cases hkey : k' = k
  · subst hkey
    by_cases hown : r.entry k' = some v <;> simp [hown]
  · by_cases hown : r.entry k = some v <;> simp [hown, hkey]

theorem Owned.enter (h : r.Owned) (hfree : r.holds i = none) : (r.enter i k v).Owned := by
  intro k' v' hentry
  by_cases hkey : k' = k
  · subst hkey
    refine ⟨i, ?_⟩
    simpa [Registry.enter] using hentry
  · obtain ⟨j, hj⟩ := h k' v' (by simpa [Registry.enter, hkey] using hentry)
    refine ⟨j, ?_⟩
    have hne : j ≠ i := by
      rintro rfl
      cases hfree.symm.trans hj
    simpa [Registry.enter, hne] using hj

theorem Owned.leave [DecidableEq ν] (h : r.Owned) (hi : r.holds i = some (k, v)) :
    (r.leave i k v).Owned := by
  intro k' v' hentry
  rw [leave_entry_eq] at hentry
  split at hentry
  · cases hentry
  · next hother =>
    obtain ⟨j, hj⟩ := h k' v' hentry
    refine ⟨j, ?_⟩
    -- the party that leaves holds a value that is not in the registry any more
    have hne : j ≠ i := by
      rintro rfl
      cases hi.symm.trans hj
      exact hother ⟨rfl, hentry⟩
    simpa [Registry.leave, hne] using hj

theorem Exclusive.enter (h : r.Exclusive) (hkey : r.entry k = none) :
    (r.enter i k v).Exclusive := by
  -- nobody holds a key that is free
  have hfree (j : ι) (k' : κ) (w : ν) (hj : r.holds j = some (k', w)) : k' ≠ k := by
    rintro rfl
    cases hkey.symm.trans (h.entered j k' w hj)
  constructor
  · intro j k' w hj
    by_cases hji : j = i
    · subst hji
      have hkv : (k, v) = (k', w) := by simpa [Registry.enter] using hj
      cases hkv
      simp [Registry.enter]
    · have hj' : r.holds j = some (k', w) := by simpa [Registry.enter, hji] using hj
      simpa [Registry.enter, hfree j k' w hj'] using h.entered j k' w hj'
  · intro j j' k' w w' hj hj'
    by_cases hji : j = i
    · by_cases hji' : j' = i
      · exact hji.trans hji'.symm
      · have hkv : (k, v) = (k', w) := by simpa [Registry.enter, hji] using hj
        have hold : r.holds j' = some (k', w') := by simpa [Registry.enter, hji'] using hj'
        cases hkv
        exact absurd rfl (hfree j' k w' hold)
    · have hold : r.holds j = some (k', w) := by simpa [Registry.enter, hji] using hj
      by_cases hji' : j' = i
      · have hkv : (k, v) = (k', w') := by simpa [Registry.enter, hji'] using hj'
        cases hkv
        exact absurd rfl (hfree j k w hold)
      · exact h.unique j j' k' w w' hold (by simpa [Registry.enter, hji'] using hj')

theorem Exclusive.leave [DecidableEq ν] (h : r.Exclusive) (hi : r.holds i = some (k, v)) :
    (r.leave i k v).Exclusive := by
  have hold (j : ι) (k' : κ) (w : ν) (hj : (r.leave i k v).holds j = some (k', w)) :
      j ≠ i ∧ r.holds j = some (k', w) := by
    by_cases hji : j = i
    · simp [Registry.leave, hji] at hj
    · exact ⟨hji, by simpa [Registry.leave, hji] using hj⟩
  constructor
  · intro j k' w hj
    obtain ⟨hji, hheld⟩ := hold j k' w hj
    have hkey : k' ≠ k := by
      rintro rfl
      exact hji (h.unique j i k' w v hheld hi)
    rw [leave_entry_eq, if_neg fun hand ↦ hkey hand.1]
    exact h.entered j k' w hheld
  · intro j j' k' w w' hj hj'
    exact h.unique j j' k' w w' (hold j k' w hj).2 (hold j' k' w' hj').2

/-- Entries keep their owners. -/
theorem Owned.moves [DecidableEq ν] (h : r.Owned) (hmoves : r.Moves r') : r'.Owned := by
  cases hmoves with
  | idle => exact h
  | enter i k v hfree => exact h.enter hfree
  | leave i k v hi => exact h.leave hi

/-- Parties stay exclusive when keys are entered only while they are free. -/
theorem Exclusive.moves [DecidableEq ν] (h : r.Exclusive) (hmoves : r.Moves r')
    (hguard : ∀ i k v, r.holds i = none → r'.holds i = some (k, v) → r.entry k = none) :
    r'.Exclusive := by
  cases hmoves with
  | idle => exact h
  | enter i k v hfree => exact h.enter (hguard i k v hfree (by simp [Registry.enter]))
  | leave i k v hi => exact h.leave hi

end Registry

/-! ### Parties in a list -/

section Parties

variable {τ β : Type} {f : τ → Option β} {ts : List τ} {t : τ} {i : Nat}

/-- What the parties in a list hold, by their index. -/
def heldBy (f : τ → Option β) (ts : List τ) (i : Nat) : Option β := ts[i]?.bind f

theorem heldBy_eq_some {b : β} : heldBy f ts i = some b ↔ ∃ t, ts[i]? = some t ∧ f t = some b :=
  Option.bind_eq_some_iff

theorem heldBy_of_getElem? (h : ts[i]? = some t) : heldBy f ts i = f t := by
  simp [heldBy, h]

theorem heldBy_set (hi : i < ts.length) :
    heldBy f (ts.set i t) = Function.update (heldBy f ts) i (f t) := by
  funext j
  by_cases hj : j = i
  · subst hj
    simp [heldBy, hi]
  · simp [heldBy, hj, List.getElem?_set_ne (Ne.symm hj)]

theorem heldBy_append {new : List τ} (hnew : ∀ t ∈ new, f t = none) :
    heldBy f (ts ++ new) = heldBy f ts := by
  funext j
  unfold heldBy
  rcases Nat.lt_or_ge j ts.length with hj | hj
  · rw [List.getElem?_append_left hj]
  · rw [List.getElem?_append_right hj, List.getElem?_eq_none hj]
    cases ht : new[j - ts.length]? with
    | none => rfl
    | some t => exact hnew t (List.mem_of_getElem? ht)

theorem heldBy_concat : heldBy f (ts ++ [t]) = Function.update (heldBy f ts) ts.length (f t) := by
  funext j
  by_cases hj : j = ts.length
  · subst hj
    simp [heldBy]
  · rw [Function.update_of_ne hj]
    unfold heldBy
    rcases Nat.lt_or_gt_of_ne hj with hj | hj
    · rw [List.getElem?_append_left hj]
    · rw [List.getElem?_eq_none, List.getElem?_eq_none (Nat.le_of_lt hj)]
      rw [List.length_append, List.length_singleton]
      exact hj

end Parties
