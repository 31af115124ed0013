import Mathlib.Data.List.Infix

/-!
# Resuming a copy

Library module. A copy of a source is made in attempts. An attempt asks for what follows the
part that is there and appends what arrives; it reports success once as many elements are
there as the source should have. Nothing compares the elements themselves.
-/

namespace Resume

variable {α : Type}

/-- One attempt at a copy of `size` elements: the copy after it and whether it reports success.
`answer n` is what arrives for a request from position `n` on, `none` when the request cannot
be made. A copy that has elements and is large enough is not asked for. -/
def attempt (size : Nat) (answer : Nat → Option (List α)) (c : List α) : List α × Bool :=
  if c ≠ [] ∧ size ≤ c.length then (c, true)
  else
    match answer c.length with
    | none => (c, false)
    | some b => (c ++ b, decide (size ≤ c.length + b.length))

/-- What arrives is a beginning of what the source has from the requested position on. -/
def Serves (source : List α) (answer : Nat → Option (List α)) (n : Nat) : Prop :=
  ∀ b, answer n = some b → b <+: source.drop n

variable {source c b : List α} {answer : Nat → Option (List α)}

/-- A beginning of the source stays one when more of the source is appended. -/
theorem append_isPrefix (hc : c <+: source) (hb : b <+: source.drop c.length) :
    c ++ b <+: source := by
  obtain ⟨t, rfl⟩ := hc
  rw [List.drop_left] at hb
  exact (List.prefix_append_right_inj c).mpr hb

/-- An attempt with a served request keeps a beginning of the source one. -/
theorem attempt_isPrefix (hc : c <+: source) (hs : Serves source answer c.length) :
    (attempt source.length answer c).1 <+: source := by
  unfold attempt
  split
  · exact hc
  · split
    · exact hc
    · next b hb => exact append_isPrefix hc (hs b hb)

/-- A served attempt that reports success has made a true copy exactly if it started from a
beginning of the source. -/
theorem attempt_eq_iff (hs : Serves source answer c.length)
    (hdone : (attempt source.length answer c).2 = true) :
    (attempt source.length answer c).1 = source ↔ c <+: source := by
  unfold attempt at hdone ⊢
  split
  · next hskip =>
    constructor
    · intro h
      rw [← h]
    · intro h
      exact h.eq_of_length_le hskip.2
  · next hskip =>
    rw [if_neg hskip] at hdone
    cases hb : answer c.length with
    | none =>
      rw [hb] at hdone
      cases hdone
    | some b =>
      rw [hb] at hdone
      have hlen := of_decide_eq_true hdone
      constructor
      · intro h
        rw [← h]
        exact List.prefix_append c b
      · intro h
        have happ := append_isPrefix h (hs b hb)
        apply happ.eq_of_length_le
        rw [List.length_append]
        exact hlen

/-- From a beginning of the source a served attempt is true to it. -/
theorem attempt_intact (hc : c <+: source) (hs : Serves source answer c.length) :
    (attempt source.length answer c).1 <+: source ∧
      ((attempt source.length answer c).2 = true →
        (attempt source.length answer c).1 = source) :=
  ⟨attempt_isPrefix hc hs, fun hdone ↦ (attempt_eq_iff hs hdone).mpr hc⟩

/-- A copy that is large enough does not depend on any answer. -/
theorem attempt_of_large {size : Nat} (h : c ≠ [] ∧ size ≤ c.length)
    (answer : Nat → Option (List α)) : attempt size answer c = (c, true) := if_pos h

/-- From a beginning of the source an attempt that receives a single element is true to the
source exactly if that element comes next in it. -/
theorem attempt_singleton_iff {x : α} (hc : c <+: source)
    (hskip : ¬ (c ≠ [] ∧ source.length ≤ c.length)) (hx : answer c.length = some [x]) :
    ((attempt source.length answer c).1 <+: source ∧
      ((attempt source.length answer c).2 = true →
        (attempt source.length answer c).1 = source)) ↔ source[c.length]? = some x := by
  rw [attempt, if_neg hskip, hx]
  constructor
  · rintro ⟨⟨t, ht⟩, -⟩
    rw [← ht]
    simp
  · intro hnext
    obtain ⟨t, rfl⟩ := hc
    rw [List.getElem?_append_right (Nat.le_refl _), Nat.sub_self] at hnext
    obtain ⟨u, rfl⟩ := List.head?_eq_some_iff.mp (List.head?_eq_getElem? .. ▸ hnext)
    have happ : c ++ [x] <+: c ++ x :: u := ⟨u, by simp⟩
    refine ⟨happ, fun hdone ↦ happ.eq_of_length_le ?_⟩
    simpa using of_decide_eq_true hdone

/-- When an attempt reports success. -/
theorem attempt_done_iff (size : Nat) (answer : Nat → Option (List α)) (c : List α) :
    (attempt size answer c).2 = true ↔ (c ≠ [] ∧ size ≤ c.length) ∨
      ∃ b, answer c.length = some b ∧ size ≤ c.length + b.length := by
  unfold attempt
  split
  · next hskip => exact iff_of_true rfl (Or.inl hskip)
  · next hskip =>
    cases hb : answer c.length with
    | none => simp [hskip]
    | some b => simp [hskip]

/-- An attempt keeps the copy or appends what arrives. -/
theorem attempt_fst (size : Nat) (answer : Nat → Option (List α)) (c : List α) :
    (attempt size answer c).1 = c ∨
      ∃ b, answer c.length = some b ∧ (attempt size answer c).1 = c ++ b := by
  unfold attempt
  split
  · exact Or.inl rfl
  · cases hb : answer c.length with
    | none => exact Or.inl rfl
    | some b => exact Or.inr ⟨b, rfl, rfl⟩

end Resume
