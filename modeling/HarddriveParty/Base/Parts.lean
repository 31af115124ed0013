import Mathlib.Data.List.Infix

/-!
# Words cut at a separator

Library module. A word is cut into its parts at every separator, and the empty word has no
parts, as a path that names the root has no components. What it means for the parts of one
word to begin those of another is said in terms of the words.
-/

namespace Parts

variable {α : Type} {sep : α}

/-- Two lists of parts are joined by a separator. -/
theorem intercalate_append {as bs : List (List α)} (ha : as ≠ []) (hb : bs ≠ []) :
    [sep].intercalate (as ++ bs) = [sep].intercalate as ++ sep :: [sep].intercalate bs := by
  induction as with
  | nil => exact absurd rfl ha
  | cons a as ih =>
    cases as with
    | nil =>
      obtain ⟨b, bs, rfl⟩ := List.exists_cons_of_ne_nil hb
      simp
    | cons a' as =>
      have h := ih (by simp)
      rw [List.cons_append] at h
      rw [List.cons_append, List.cons_append, List.intercalate_cons_cons, h,
        List.intercalate_cons_cons]
      simp

/-- The proper beginnings of a list are its first element and that before the proper beginnings
of the rest. -/
theorem forall_proper_prefix_cons {c : α} {rest : List α} {P : List α → Prop} :
    (∀ more, more ≠ [] → more <+: c :: rest → more ≠ c :: rest → P more) ↔
      rest ≠ [] → P [c] ∧ ∀ more, more ≠ [] → more <+: rest → more ≠ rest → P (c :: more) := by
  constructor
  · intro hall hrest
    refine ⟨hall [c] (by simp) (by simp) (by simpa using Ne.symm hrest), ?_⟩
    intro more _ hpre hne
    exact hall (c :: more) (by simp) (List.prefix_cons_inj c |>.mpr hpre) (by simpa using hne)
  · intro hall more hmore hpre hne
    obtain hnil | ⟨t, rfl, ht⟩ := List.prefix_cons_iff.mp hpre
    · exact absurd hnil hmore
    · have hne' : t ≠ rest := by simpa using hne
      have hrest : rest ≠ [] := by
        rintro rfl
        exact hne' (List.prefix_nil.mp ht)
      by_cases htnil : t = []
      · rw [htnil]
        exact (hall hrest).1
      · exact (hall hrest).2 t htnil ht hne'

variable [DecidableEq α]

/-- The parts of a word between its separators; the empty word has none. -/
def parts (sep : α) (w : List α) : List (List α) := if w = [] then [] else w.splitOn sep

@[simp] theorem parts_nil : parts sep [] = [] := rfl

/-- A word that is not empty is cut at every separator. -/
theorem parts_of_ne_nil {w : List α} (h : w ≠ []) : parts sep w = w.splitOn sep := if_neg h

/-- The parts of a word joined again are the word. -/
theorem intercalate_parts (w : List α) : [sep].intercalate (parts sep w) = w := by
  by_cases h : w = []
  · simp [h]
  · rw [parts_of_ne_nil h, List.intercalate_splitOn]

/-- No part of a cut word holds the separator. -/
theorem notMem_of_mem_splitOn {w part : List α} (h : part ∈ w.splitOn sep) : sep ∉ part := by
  induction w generalizing part with
  | nil =>
    rw [List.splitOn_nil, List.mem_singleton] at h
    simp [h]
  | cons c w ih =>
    rw [List.splitOn_cons_eq_if_modifyHead] at h
    split at h
    · rcases List.mem_cons.mp h with rfl | h
      · simp
      · exact ih h
    · next hc =>
      rcases hw : w.splitOn sep with _ | ⟨first, rest⟩
      · exact absurd hw (List.splitOn_ne_nil sep w)
      · have hin : ∀ q ∈ first :: rest, sep ∉ q := fun q hq ↦ ih (by rw [hw]; exact hq)
        rw [hw, List.modifyHead_cons] at h
        rcases List.mem_cons.mp h with rfl | h
        · rw [List.mem_cons, not_or]
          exact ⟨fun he ↦ hc (by simp [he]), hin first (by simp)⟩
        · exact hin part (by simp [h])

/-- No part of a word holds the separator. -/
theorem notMem_of_mem_parts {w part : List α} (h : part ∈ parts sep w) : sep ∉ part := by
  by_cases hw : w = []
  · simp [hw] at h
  · rw [parts_of_ne_nil hw] at h
    exact notMem_of_mem_splitOn h

/-- Joined words that are not empty and hold no separator are the parts of the result. -/
theorem parts_intercalate {cs : List (List α)} (hne : ∀ c ∈ cs, c ≠ [])
    (hsep : ∀ c ∈ cs, sep ∉ c) : parts sep ([sep].intercalate cs) = cs := by
  cases cs with
  | nil => simp
  | cons c cs =>
    have hc : [sep].intercalate (c :: cs) ≠ [] := by
      have hfirst := hne c (by simp)
      cases cs with
      | nil => simpa using hfirst
      | cons d cs => simp
    rw [parts_of_ne_nil hc, List.splitOn_intercalate sep hsep (by simp)]

/-- Only the empty word has no parts. -/
theorem parts_eq_nil_iff {w : List α} : parts sep w = [] ↔ w = [] := by
  constructor
  · intro h
    rw [← intercalate_parts (w := w), h]
    rfl
  · rintro rfl
    rfl

/-- Words with the same parts are equal. -/
theorem parts_inj {v w : List α} : parts sep v = parts sep w ↔ v = w := by
  constructor
  · intro h
    rw [← intercalate_parts (w := v), h, intercalate_parts]
  · rintro rfl
    rfl

/-- Behind a separator new parts begin. -/
theorem parts_append_cons {w : List α} (h : w ≠ []) (r : List α) :
    parts sep (w ++ sep :: r) = parts sep w ++ r.splitOn sep := by
  rw [parts_of_ne_nil (by simp), parts_of_ne_nil h, List.splitOn_append_cons_self]

/-- The parts of a word begin those of another exactly when that is the word itself or goes
on behind it with a separator. -/
theorem parts_prefix_iff {w v : List α} (h : w ≠ []) :
    parts sep w <+: parts sep v ↔ v = w ∨ ∃ r, v = w ++ sep :: r := by
  constructor
  · rintro ⟨rest, hrest⟩
    cases rest with
    | nil =>
      rw [List.append_nil, parts_inj] at hrest
      exact Or.inl hrest.symm
    | cons first rest =>
      have hv := congrArg ([sep].intercalate) hrest
      rw [intercalate_append (mt parts_eq_nil_iff.mp h) (by simp), intercalate_parts,
        intercalate_parts] at hv
      exact Or.inr ⟨_, hv.symm⟩
  · rintro (rfl | ⟨r, rfl⟩)
    · exact List.prefix_rfl
    · rw [parts_append_cons h]
      exact List.prefix_append _ _

end Parts
