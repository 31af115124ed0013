import HarddriveParty.Base.Parts
import HarddriveParty.Base.Utf8

/-!
# Paths as the web UI shows them

A path names the components between its slashes, and the empty path, a peer's root, has none.
Ancestry is a matter of components; the byte strings in which the keys of the UI are ordered
show it as a path that goes on with a slash.
-/

namespace HarddriveParty

open Parts

/-- The components of a path. -/
def pathComponents (path : String) : List (List Char) := parts '/' path.toList

/-- The path names a proper ancestor, component by component. -/
def IsPathAncestor (ancestor path : String) : Prop :=
  pathComponents ancestor <+: pathComponents path ∧ ancestor ≠ path

instance : DecidableRel IsPathAncestor := fun _ _ ↦ inferInstanceAs (Decidable (_ ∧ _))

theorem pathComponents_inj {a b : String} : pathComponents a = pathComponents b ↔ a = b :=
  parts_inj.trans String.toList_inj

/-- A path itself or one of its ancestors has the first of its components. -/
theorem eq_or_isPathAncestor_iff {a b : String} :
    b = a ∨ IsPathAncestor a b ↔ pathComponents a <+: pathComponents b := by
  constructor
  · rintro (rfl | h)
    · exact List.prefix_rfl
    · exact h.1
  · intro h
    by_cases he : b = a
    · exact Or.inl he
    · exact Or.inr ⟨h, Ne.symm he⟩

/-- The components of a path other than the root are the first of another path exactly when
that is the same or goes on with a slash. -/
theorem pathComponents_prefix_iff {a b : String} (ha : a ≠ "") :
    pathComponents a <+: pathComponents b ↔ b = a ∨ ∃ r : String, b = a ++ "/" ++ r := by
  have hne : a.toList ≠ [] := mt String.toList_eq_nil_iff.mp ha
  unfold pathComponents
  rw [parts_prefix_iff hne, String.toList_inj]
  constructor
  · rintro (h | ⟨r, h⟩)
    · exact Or.inl h
    · refine Or.inr ⟨String.ofList r, ?_⟩
      rw [← String.toList_inj, h]
      simp
  · rintro (h | ⟨r, h⟩)
    · exact Or.inl h
    · refine Or.inr ⟨r.toList, ?_⟩
      rw [h]
      simp

/-- In bytes, the components of a path other than the root are the first of another path
exactly when that begins with it and goes on with a slash or not at all. -/
theorem pathComponents_prefix_iff_bytes {a b : String} (ha : a ≠ "") :
    pathComponents a <+: pathComponents b ↔
      ∃ r, Utf8.encode b = Utf8.encode a ++ r ∧ ∀ x ∈ r.head?, x = 47 := by
  rw [pathComponents_prefix_iff ha]
  constructor
  · rintro (rfl | ⟨r, rfl⟩)
    · exact ⟨[], by simp, by simp⟩
    · refine ⟨47 :: Utf8.encode r, ?_, by simp⟩
      rw [Utf8.encode_append, Utf8.encode_append, List.append_assoc]
      rfl
  · rintro ⟨r, hr, hhead⟩
    cases r with
    | nil => exact Or.inl (Utf8.encode_inj.mp (by rw [hr, List.append_nil]))
    | cons x r =>
      obtain rfl := hhead x rfl
      have hvalid : (Utf8.decode (Utf8.encode a ++ 47 :: r)).isSome := by
        rw [← hr, Utf8.decode_eq_some_iff.mpr rfl]
        rfl
      obtain ⟨s, hs⟩ := Option.isSome_iff_exists.mp
        (Utf8.decode_around_ascii (by decide) hvalid).2
      refine Or.inr ⟨s, Utf8.encode_inj.mp ?_⟩
      rw [Utf8.encode_append, Utf8.encode_append, List.append_assoc, hr,
        Utf8.encode_of_decode hs]
      rfl

end HarddriveParty
