import Mathlib.Data.Option.Basic

/-!
# Two parties

Library module. The two parties of a protocol, and the other one of each.
-/

namespace TwoParties

/-- One of two parties. -/
inductive Side where
  | a
  | b
  deriving DecidableEq, Repr

namespace Side

/-- The other party. -/
def other : Side → Side
  | a => b
  | b => a

@[simp] theorem other_other (x : Side) : x.other.other = x := by
  cases x <;> rfl

@[simp] theorem other_ne (x : Side) : x.other ≠ x := by
  cases x <;> decide

theorem eq_other_of_ne {x y : Side} (h : y ≠ x) : y = x.other := by
  cases x <;> cases y <;> first | rfl | exact absurd rfl h

end Side

end TwoParties
