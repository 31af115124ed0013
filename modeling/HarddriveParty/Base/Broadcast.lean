import Mathlib.Data.List.Basic

/-!
# A broadcast channel

Library module. All that is sent is kept for the receivers, but not more than a fixed number of
the latest values. Each receiver has a place of its own, from the end of what was sent when it
subscribed. A receiver that falls too far behind is told so, and is not given a later value in
the place of one that it has missed. So what a receiver is given is always a part of what was
sent without a gap, and what several receivers are given, each subscribed after the one before it
has stopped, is a sublist of what was sent.
-/

namespace Broadcast

variable {α : Type}

/-- What a receiver gets. -/
inductive Received (α : Type) where
  | value (a : α)
  | empty
  | lagged (missed : Nat)
  deriving DecidableEq, Repr

/-- Receive the value at a place. -/
def recv (capacity : Nat) (sent : List α) (next : Nat) : Received α :=
  if sent.length - next ≤ capacity then
    match sent[next]? with
    | some a => .value a
    | none => .empty
  else .lagged (sent.length - next - capacity)

variable {sent : List α} {capacity first next : Nat} {a : α}

theorem recv_eq_value (h : recv capacity sent next = .value a) : sent[next]? = some a := by
  unfold recv at h
  split at h
  · split at h
    · next heq =>
      cases h
      exact heq
    · cases h
  · cases h

/-- A receiver that gets nothing has got everything, and is not behind. -/
theorem recv_eq_empty (h : recv capacity sent next = .empty) : sent.length ≤ next := by
  unfold recv at h
  split at h
  · split at h
    · cases h
    · next heq => exact List.getElem?_eq_none_iff.mp heq
  · cases h

/-- A receiver that has subscribed at one place and is at another has been given these values. -/
structure Given (sent : List α) (first next : Nat) (values : List α) : Prop where
  values : values = sent.extract first next
  le : first ≤ next
  bound : next ≤ sent.length

namespace Given

variable {values : List α}

/-- A receiver subscribes behind all that was sent. -/
theorem subscribe (sent : List α) : Given sent sent.length sent.length [] :=
  ⟨by simp [List.extract_eq_take_drop], Nat.le_refl _, Nat.le_refl _⟩

/-- A receiver is given the next value. -/
theorem receive (h : Given sent first next values) (ha : sent[next]? = some a) :
    Given sent first (next + 1) (values ++ [a]) := by
  obtain ⟨hlt, rfl⟩ := List.getElem?_eq_some_iff.mp ha
  refine ⟨?_, Nat.le_succ_of_le h.le, hlt⟩
  have hfirst : next + 1 - first = (next - first) + 1 := by
    have := h.le
    omega
  have hlast : (sent.drop first)[next - first]? = some sent[next] := by
    rw [List.getElem?_drop, Nat.add_sub_cancel' h.le, List.getElem?_eq_getElem hlt]
  rw [h.values, List.extract_eq_take_drop, List.extract_eq_take_drop, hfirst, List.take_add_one,
    hlast, Option.toList_some]

/-- A value more is sent. -/
theorem send (h : Given sent first next values) (a : α) :
    Given (sent ++ [a]) first next values := by
  refine ⟨?_, h.le, Nat.le_trans h.bound (by simp)⟩
  rw [h.values, List.extract_eq_take_drop, List.extract_eq_take_drop,
    List.drop_append_of_le_length (Nat.le_trans h.le h.bound), List.take_append_of_le_length]
  rw [List.length_drop]
  exact Nat.sub_le_sub_right h.bound first

/-- So many values lie between the two places. -/
theorem length (h : Given sent first next values) : values.length = next - first := by
  rw [h.values, List.extract_eq_take_drop, List.length_take, List.length_drop]
  have := h.bound
  omega

/-- The first of the values are what was given at an earlier place. -/
theorem of_prefix (h : Given sent first next values) {shown : List α} (hshown : shown <+: values) :
    Given sent first (first + shown.length) shown := by
  have hle := hshown.length_le
  rw [h.length] at hle
  refine ⟨?_, Nat.le_add_right _ _, ?_⟩
  · rw [List.extract_eq_take_drop, Nat.add_sub_cancel_left]
    have htake := List.prefix_iff_eq_take.mp hshown
    rw [h.values, List.extract_eq_take_drop, List.take_take, Nat.min_eq_left hle] at htake
    exact htake
  · have hbound := h.bound
    have hfirst := h.le
    omega

/-- A receiver that is at the end has been given all that was sent since it has subscribed. -/
theorem at_end (h : Given sent first next values) (hend : sent.length ≤ next) :
    values = sent.drop first := by
  rw [h.values, List.extract_eq_take_drop, List.take_of_length_le]
  rw [List.length_drop]
  exact Nat.sub_le_sub_right hend first

end Given

/-- What receivers are given of which each has subscribed behind the last place of the one before
is a sublist of what was sent. -/
theorem flatMap_sublist (receivers : List (Nat × List α)) (start : Nat)
    (hgiven : ∀ r ∈ receivers, Given sent r.1 (r.1 + r.2.length) r.2)
    (horder : receivers.Pairwise fun r s ↦ r.1 + r.2.length ≤ s.1)
    (hstart : ∀ r ∈ receivers, start ≤ r.1) :
    (receivers.flatMap Prod.snd).Sublist (sent.drop start) := by
  induction receivers generalizing start with
  | nil => exact List.nil_sublist _
  | cons r receivers ih =>
    obtain ⟨hfirst, hrest⟩ := List.pairwise_cons.mp horder
    have hr := hgiven r List.mem_cons_self
    have hvalues : r.2 ++ sent.drop (r.1 + r.2.length) = sent.drop r.1 := by
      have htake : r.2 = (sent.drop r.1).take r.2.length := by
        have hvalues := hr.values
        rwa [List.extract_eq_take_drop, Nat.add_sub_cancel_left] at hvalues
      rw [← List.drop_drop]
      nth_rewrite 1 [htake]
      exact List.take_append_drop _ _
    have htail :=
      ih (r.1 + r.2.length) (fun s hs ↦ hgiven s (List.mem_cons_of_mem _ hs)) hrest hfirst
    have hdrop : (sent.drop r.1).Sublist (sent.drop start) :=
      List.drop_sublist_drop_left sent (hstart r List.mem_cons_self)
    rw [List.flatMap_cons]
    exact (hvalues ▸ List.Sublist.append_left htail r.2).trans hdrop

end Broadcast
