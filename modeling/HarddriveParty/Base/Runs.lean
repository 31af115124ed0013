import Mathlib.Logic.Function.Iterate

/-!
# Runs of a deterministic system

Library module. A run is a list of inputs from a state on. The rules below reduce a property
of all steps, or of all states, of a run to what one step does under an invariant.
-/

namespace Runs

variable {σ α : Type} (step : σ → α → σ)

/-- The state at the end of a run. -/
def finalState (s : σ) (as : List α) : σ := as.foldl step s

/-- A property holds at every step of a run. -/
def EachStep (P : σ → α → Prop) : σ → List α → Prop
  | _, [] => True
  | s, a :: as => P s a ∧ EachStep P (step s a) as

/-- A property holds in every state of a run. -/
def EachState (Q : σ → Prop) : σ → List α → Prop
  | s, [] => Q s
  | s, a :: as => Q s ∧ EachState Q (step s a) as

variable {step} {P C A : σ → α → Prop} {Q I : σ → Prop} {s : σ} {as : List α}

instance EachStep.decidable [∀ s a, Decidable (P s a)] :
    (s : σ) → (as : List α) → Decidable (EachStep step P s as)
  | _, [] => isTrue trivial
  | s, a :: as =>
    have := EachStep.decidable (step s a) as
    inferInstanceAs (Decidable (P s a ∧ EachStep step P (step s a) as))

/-- A property holds in every state when it holds at first and after every step. -/
theorem eachState_iff :
    EachState step Q s as ↔ Q s ∧ EachStep step (fun s a ↦ Q (step s a)) s as := by
  induction as generalizing s with
  | nil => exact (and_iff_left trivial).symm
  | cons a as ih =>
    show Q s ∧ EachState step Q (step s a) as ↔ Q s ∧ Q (step s a) ∧ EachStep _ _ _ _
    rw [ih]

/-- If under an invariant one property of a step is as good as another, and keeps the
invariant, then they are as good as each other for whole runs. -/
theorem eachStep_iff (hI : I s) (hA : EachStep step A s as)
    (hstep : ∀ s a, I s → A s a → (P s a ↔ C s a))
    (hkeep : ∀ s a, I s → A s a → P s a → I (step s a)) :
    EachStep step P s as ↔ EachStep step C s as := by
  induction as generalizing s with
  | nil => rfl
  | cons a as ih =>
    have hhead := hstep s a hI hA.1
    constructor
    · intro h
      exact ⟨hhead.mp h.1, (ih (hkeep s a hI hA.1 h.1) hA.2).mp h.2⟩
    · intro h
      have hP := hhead.mpr h.1
      exact ⟨hP, (ih (hkeep s a hI hA.1 hP) hA.2).mpr h.2⟩

/-- What holds at a step under an invariant holds at every step of a run. -/
theorem eachStep_of_invariant (hI : I s) (hA : EachStep step A s as)
    (hkeep : ∀ s a, I s → A s a → I (step s a)) (hP : ∀ s a, I s → A s a → P s a) :
    EachStep step P s as := by
  induction as generalizing s with
  | nil => trivial
  | cons a as ih => exact ⟨hP s a hI hA.1, ih (hkeep s a hI hA.1) hA.2⟩

/-- An invariant holds in every state of a run. -/
theorem eachState_of_invariant (hI : I s) (hA : EachStep step A s as)
    (hkeep : ∀ s a, I s → A s a → I (step s a)) : EachState step I s as := by
  rw [eachState_iff]
  exact ⟨hI, eachStep_of_invariant hI hA hkeep hkeep⟩

/-- What follows from a property of every state holds in every state. -/
theorem EachState.mono {Q' : σ → Prop} (h : EachState step Q s as) (hQ : ∀ s, Q s → Q' s) :
    EachState step Q' s as := by
  induction as generalizing s with
  | nil => exact hQ s h
  | cons a as ih => exact ⟨hQ s h.1, ih h.2⟩

/-- What holds in every state of a run holds in the last one. -/
theorem EachState.final (h : EachState step Q s as) : Q (finalState step s as) := by
  induction as generalizing s with
  | nil => exact h
  | cons a as ih => exact ih h.2

/-- If each step of one system is matched by a step of another, then so is each run, and a
property of all its steps is matched by one of the other run. -/
theorem simulation {τ β : Type} {step' : τ → β → τ} {P' B : τ → β → Prop} {R : σ → τ → Prop}
    {t : τ} (hR : R s t) (hA : EachStep step A s as)
    (hstep : ∀ s t a, R s t → A s a →
      ∃ b, B t b ∧ R (step s a) (step' t b) ∧ (P s a ↔ P' t b)) :
    ∃ bs, EachStep step' B t bs ∧ R (finalState step s as) (finalState step' t bs) ∧
      (EachStep step P s as ↔ EachStep step' P' t bs) := by
  induction as generalizing s t with
  | nil => exact ⟨[], trivial, hR, Iff.rfl⟩
  | cons a as ih =>
    obtain ⟨b, hB, hnext, hP⟩ := hstep s t a hR hA.1
    obtain ⟨bs, hBs, hfinal, hPs⟩ := ih hnext hA.2
    exact ⟨b :: bs, ⟨hB, hBs⟩, hfinal, and_congr hP hPs⟩

/-- What a step cannot restore held in every state, if it holds in the last one. -/
theorem eachState_of_finalState (hI : I s) (hA : EachStep step A s as)
    (hkeep : ∀ s a, I s → A s a → I (step s a))
    (hback : ∀ s a, I s → A s a → Q (step s a) → Q s) (hfinal : Q (finalState step s as)) :
    EachState step Q s as := by
  induction as generalizing s with
  | nil => exact hfinal
  | cons a as ih =>
    have hrest := ih (hkeep s a hI hA.1) hA.2 hfinal
    have hnext : Q (step s a) := by
      cases as with
      | nil => exact hrest
      | cons _ _ => exact hrest.1
    exact ⟨hback s a hI hA.1 hnext, hrest⟩

theorem finalState_append (s : σ) (as bs : List α) :
    finalState step s (as ++ bs) = finalState step (finalState step s as) bs :=
  List.foldl_append

/-- A property holds at every step of a run exactly when it does so in both parts of the run. -/
theorem eachStep_append {bs : List α} :
    EachStep step P s (as ++ bs) ↔
      EachStep step P s as ∧ EachStep step P (finalState step s as) bs := by
  induction as generalizing s with
  | nil => exact (and_iff_right trivial).symm
  | cons a as ih =>
    show P s a ∧ EachStep step P (step s a) (as ++ bs) ↔
      (P s a ∧ EachStep step P (step s a) as) ∧
        EachStep step P (finalState step (step s a) as) bs
    rw [ih, and_assoc]

/-- Two properties of every step hold together at every step. -/
theorem EachStep.and (hP : EachStep step P s as) (hC : EachStep step C s as) :
    EachStep step (fun s a ↦ P s a ∧ C s a) s as := by
  induction as generalizing s with
  | nil => trivial
  | cons a as ih => exact ⟨⟨hP.1, hC.1⟩, ih hP.2 hC.2⟩

/-- A property of all inputs of a run holds at every step. -/
theorem eachStep_of_forall {B : α → Prop} (h : ∀ a ∈ as, B a) :
    EachStep step (fun _ a ↦ B a) s as := by
  induction as generalizing s with
  | nil => trivial
  | cons a as ih => exact ⟨h a (by simp), ih fun b hb ↦ h b (by simp [hb])⟩

/-- A property of the inputs holds at every step exactly when it holds of all inputs. -/
theorem eachStep_input_iff {B : α → Prop} :
    EachStep step (fun _ a ↦ B a) s as ↔ ∀ a ∈ as, B a := by
  induction as generalizing s with
  | nil => simp [EachStep]
  | cons a as ih => rw [EachStep, ih, List.forall_mem_cons]

/-- What each step keeps exactly under a condition holds in every state of a run exactly when
every step meets the condition. -/
theorem eachState_iff_eachStep (hQ : Q s) (hstep : ∀ s a, Q s → (Q (step s a) ↔ C s a)) :
    EachState step Q s as ↔ EachStep step C s as := by
  rw [eachState_iff, and_iff_right hQ]
  apply eachStep_iff (A := fun _ _ ↦ True) hQ (eachStep_of_forall fun _ _ ↦ trivial)
  · exact fun s a hs _ ↦ hstep s a hs
  · exact fun s a _ _ hnext ↦ hnext

/-- What holds at the end of a run and not at its start has come true at one of its steps. -/
theorem exists_step_of_finalState (h : ¬Q s) (hfinal : Q (finalState step s as)) :
    ∃ before a after, as = before ++ a :: after ∧ ¬Q (finalState step s before) ∧
      Q (step (finalState step s before) a) := by
  induction as generalizing s with
  | nil => exact absurd hfinal h
  | cons a as ih =>
    by_cases hnext : Q (step s a)
    · exact ⟨[], a, as, rfl, h, hnext⟩
    · obtain ⟨before, b, after, rfl, hbefore, hafter⟩ := ih hnext hfinal
      exact ⟨a :: before, b, after, rfl, hbefore, hafter⟩

/-- The steps of a run: the states in which they were made, and their inputs. -/
def trace (step : σ → α → σ) : σ → List α → List (σ × α)
  | _, [] => []
  | s, a :: as => (s, a) :: trace step (step s a) as

/-- What holds of a state and of the steps that led to it holds at the end of a run. -/
theorem finalState_trace {H : σ → List (σ × α) → Prop} {done : List (σ × α)} (hH : H s done)
    (hA : EachStep step A s as)
    (hkeep : ∀ s a done, H s done → A s a → H (step s a) (done ++ [(s, a)])) :
    H (finalState step s as) (done ++ trace step s as) := by
  induction as generalizing s done with
  | nil =>
    rw [trace, List.append_nil]
    exact hH
  | cons a as ih =>
    have hrest := ih (hkeep s a done hH hA.1) hA.2
    rw [List.append_assoc] at hrest
    exact hrest

/-- A state that keeps the first observation of its steps has kept the first one of a run, unless
it is lost. -/
theorem kept_finalState {β : Type} {M : σ → Option β} {f : σ × α → Option β} {L : σ → Prop}
    (hlost : ∀ s a, L s → L (step s a))
    (hstep : ∀ s a, L (step s a) ∨ M (step s a) = (M s).or (f (s, a))) (hstart : M s = none) :
    L (finalState step s as) ∨ M (finalState step s as) = (trace step s as).findSome? f := by
  let Keeps (s : σ) (done : List (σ × α)) : Prop := L s ∨ M s = done.findSome? f
  have hkeeps : Keeps s [] := Or.inr hstart
  have hfree : EachStep step (fun _ _ ↦ True) s as := eachStep_of_forall fun _ _ ↦ trivial
  refine finalState_trace (H := Keeps) hkeeps hfree fun s a done h _ ↦ ?_
  rcases h with h | h
  · exact Or.inl (hlost s a h)
  · refine (hstep s a).imp_right fun hnext ↦ ?_
    rw [hnext, h, List.findSome?_append, List.findSome?_singleton]

section Iteration

variable {σ τ : Type} {f : σ → σ} {g : τ → τ} {I D : σ → Prop} {s : σ} {t : τ}

end Iteration

end Runs
