import HarddriveParty.Base.OrderedTree

/-!
# Key ranges of ordered trees

Library module. The entries of an ordered tree that a test on their keys selects, the keys
between two bounds, and an update of the selected entries in place. For keys compared letter
by letter it says what lies between a word and its extension by one letter: the words that
begin with it and go on with a smaller letter, or not at all.
-/

namespace OrderedTree

section Bounds

variable {α : Type}

/-- The key lies between the bounds; the upper one is left out. -/
def InRange (cmp : α → α → Ordering) (lo hi k : α) : Prop := cmp lo k ≠ .gt ∧ cmp k hi = .lt

/-- The key lies between the bounds; both are taken in. -/
def InClosedRange (cmp : α → α → Ordering) (lo hi k : α) : Prop :=
  cmp lo k ≠ .gt ∧ cmp k hi ≠ .gt

instance (cmp : α → α → Ordering) (lo hi : α) : DecidablePred (InRange cmp lo hi) :=
  fun _ ↦ inferInstanceAs (Decidable (_ ∧ _))

instance (cmp : α → α → Ordering) (lo hi : α) : DecidablePred (InClosedRange cmp lo hi) :=
  fun _ ↦ inferInstanceAs (Decidable (_ ∧ _))

/-- A closed range is the half-open one and its upper bound. -/
theorem inClosedRange_iff {cmp : α → α → Ordering} {lo hi k : α} (hb : cmp lo hi ≠ .gt)
    [Std.TransCmp cmp] [Std.LawfulEqCmp cmp] :
    InClosedRange cmp lo hi k ↔ InRange cmp lo hi k ∨ k = hi := by
  unfold InClosedRange InRange
  constructor
  · rintro ⟨hlo, hhi⟩
    cases hc : cmp k hi with
    | lt => exact Or.inl ⟨hlo, rfl⟩
    | eq => exact Or.inr (Std.LawfulEqCmp.eq_of_compare hc)
    | gt => exact absurd hc hhi
  · rintro (⟨hlo, hhi⟩ | rfl)
    · rw [hhi]
      exact ⟨hlo, by decide⟩
    · have hself : cmp k k = .eq := Std.ReflCmp.compare_self
      rw [hself]
      exact ⟨hb, by decide⟩

/-- In a lexicographic order, bounds with equal first parts leave only keys with that first
part, between the bounds of the second. -/
theorem inRange_compareLex {cmp₁ cmp₂ : α → α → Ordering} [Std.TransCmp cmp₁] {lo hi k : α}
    (h : cmp₁ lo hi = .eq) :
    InRange (compareLex cmp₁ cmp₂) lo hi k ↔ cmp₁ lo k = .eq ∧ InRange cmp₂ lo hi k := by
  have hk : cmp₁ k hi = (cmp₁ lo k).swap := by
    rw [← Std.TransCmp.congr_right h, ← Std.OrientedCmp.eq_swap]
  unfold InRange compareLex
  rw [hk]
  cases cmp₁ lo k with
  | lt => simp
  | eq => simp
  | gt => simp

/-- In a lexicographic order, bounds whose second parts are least leave the keys whose first
part lies between the bounds. -/
theorem inRange_compareLex_of_least {cmp₁ cmp₂ : α → α → Ordering} {lo hi k : α}
    (hlo : cmp₂ lo k ≠ .gt) (hhi : cmp₂ k hi ≠ .lt) :
    InRange (compareLex cmp₁ cmp₂) lo hi k ↔ InRange cmp₁ lo hi k := by
  have hfirst : (cmp₁ lo k).then (cmp₂ lo k) ≠ .gt ↔ cmp₁ lo k ≠ .gt := by
    cases cmp₁ lo k with
    | lt => simp
    | eq => simpa using hlo
    | gt => simp
  have hsecond : (cmp₁ k hi).then (cmp₂ k hi) = .lt ↔ cmp₁ k hi = .lt := by
    cases cmp₁ k hi with
    | lt => simp
    | eq => simpa using hhi
    | gt => simp
  exact and_congr hfirst hsecond

end Bounds

section Words

variable {α : Type} [Ord α] [Std.TransOrd α] [Std.LawfulEqOrd α]

/-- Between a word and its extension by a letter lie the words that begin with it and go on
with a smaller letter, or not at all. -/
theorem inRange_append_singleton {p k : List α} {c : α} :
    InRange compare p (p ++ [c]) k ↔
      ∃ r, k = p ++ r ∧ ∀ x ∈ r.head?, compare x c = .lt := by
  induction p generalizing k with
  | nil =>
    cases k with
    | nil => simp [InRange]
    | cons x r =>
      cases hx : compare x c with
      | lt => simp [InRange, hx]
      | eq => cases r <;> simp [InRange, hx]
      | gt => simp [InRange, hx]
  | cons a p ih =>
    cases k with
    | nil => simp [InRange]
    | cons b k =>
      have hswap : compare b a = (compare a b).swap := Std.OrientedOrd.eq_swap
      cases hab : compare a b with
      | lt =>
        -- the range starts later: its words begin with the smaller letter
        have hne : ¬ b = a := by
          rintro rfl
          rw [Std.ReflOrd.compare_self] at hab
          cases hab
        simp [InRange, hswap, hab, hne]
      | eq =>
        obtain rfl := Std.LawfulEqOrd.eq_of_compare hab
        have hstep : InRange compare (a :: p) (a :: p ++ [c]) (a :: k) ↔
            InRange compare p (p ++ [c]) k := by
          simp [InRange]
        rw [hstep, ih]
        simp
      | gt =>
        have hne : ¬ b = a := by
          rintro rfl
          rw [Std.ReflOrd.compare_self] at hab
          cases hab
        simp [InRange, hab, hne]

end Words

section Selection

variable {α β : Type} {cmp : α → α → Ordering} [Std.TransCmp cmp]

/-- The entries whose key the test selects, in key order. -/
def select (t : Std.ExtTreeMap α β cmp) (sel : α → Prop) [DecidablePred sel] : List (α × β) :=
  t.toList.filter fun kv ↦ sel kv.1

/-- Apply a function to the values of the selected keys. -/
def updateSelected (t : Std.ExtTreeMap α β cmp) (sel : α → Prop) [DecidablePred sel]
    (f : β → β) : Std.ExtTreeMap α β cmp :=
  t.map fun k v ↦ if sel k then f v else v

/-- The selected keys strictly increase. -/
theorem pairwise_select (t : Std.ExtTreeMap α β cmp) (sel : α → Prop) [DecidablePred sel] :
    (select t sel).Pairwise fun a b ↦ cmp a.1 b.1 = .lt := t.ordered_keys_toList.filter _

variable [Std.LawfulEqCmp cmp]

/-- A selection holds exactly the entries whose key is selected. -/
theorem mem_select {t : Std.ExtTreeMap α β cmp} {sel : α → Prop} [DecidablePred sel] {k : α}
    {v : β} : (k, v) ∈ select t sel ↔ t[k]? = some v ∧ sel k := by
  rw [select, List.mem_filter, Std.ExtTreeMap.mem_toList_iff_getElem?_eq_some,
    decide_eq_true_eq]

/-- A selection holds each entry once. -/
theorem nodup_select (t : Std.ExtTreeMap α β cmp) (sel : α → Prop) [DecidablePred sel] :
    (select t sel).Nodup := (nodup_toList t).filter _

/-- An update in place changes the values of the selected keys only. -/
theorem getElem?_updateSelected (t : Std.ExtTreeMap α β cmp) (sel : α → Prop)
    [DecidablePred sel] (f : β → β) (k : α) :
    (updateSelected t sel f)[k]? = t[k]?.map fun v ↦ if sel k then f v else v := by
  rw [updateSelected, Std.ExtTreeMap.getElem?_map]

end Selection

end OrderedTree
