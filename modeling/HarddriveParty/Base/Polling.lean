import Mathlib.Logic.Function.Iterate

/-!
# Streams that are polled

Library module. A stream is a state and a function that polls it: each poll gives an item, the
end, or nothing yet, and the next state. A consumer that polls until the end stops exactly when
there is an end.
-/

namespace Polling

/-- What a poll gives. -/
inductive Poll (α : Type) where
  | pending
  | ready (item : Option α)
  deriving DecidableEq, Repr

variable {σ α : Type} (poll : σ → Poll α × σ)

/-- Polling from a state gives these items, and then the end. -/
inductive Gives : σ → List α → Prop where
  | ended {s : σ} (h : (poll s).1 = .ready none) : Gives s []
  | item {s : σ} {a : α} {as : List α} (h : (poll s).1 = .ready (some a))
      (hrest : Gives (poll s).2 as) : Gives s (a :: as)
  | pending {s : σ} {as : List α} (h : (poll s).1 = .pending) (hrest : Gives (poll s).2 as) :
      Gives s as

/-- The end comes after finitely many polls. -/
def Ends (s : σ) : Prop := ∃ n, (poll ((fun s ↦ (poll s).2)^[n] s)).1 = .ready none

variable {poll} {s : σ} {as : List α}

/-- A stream that gives its items comes to an end. -/
theorem Gives.ends (h : Gives poll s as) : Ends poll s := by
  induction h with
  | ended h => exact ⟨0, h⟩
  | item _ _ ih => exact ih.imp' Nat.succ fun _ hn ↦ hn
  | pending _ _ ih => exact ih.imp' Nat.succ fun _ hn ↦ hn

/-- A stream has no end when an invariant of its polls rules the end out. -/
theorem not_ends {I : σ → Prop} (hI : I s) (hstep : ∀ s, I s → I (poll s).2)
    (hend : ∀ s, I s → (poll s).1 ≠ .ready none) : ¬ Ends poll s := by
  rintro ⟨n, hn⟩
  have hafter : I ((fun s ↦ (poll s).2)^[n] s) := Function.Iterate.rec I hI hstep n
  exact hend _ hafter hn

end Polling
