import HarddriveParty.Base.Runs
import HarddriveParty.Base.TwoParties
import Mathlib.Logic.Function.Basic

/-!
# Two parties that keep their existing connection

Abstract model of two parties with a connection from each to the other, named after the party
that dialled it. A party that meets the second connection closes it when its first one is live,
and otherwise registers it; a close reaches the other party later. In the end both parties have
the same open connection registered exactly when no party closes a connection in favour of one
that the other party has closed.
-/

namespace KeepExisting

open Runs TwoParties

/-- What a party knows of the two connections: the one it has registered, the ones closed at
its end, and the ones it has processed. -/
structure Party where
  registered : Option Side
  closed : Side → Bool
  processed : Side → Bool

namespace Party

/-- The connection is registered. -/
def register (v : Party) (d : Side) : Party :=
  ⟨some d, v.closed, Function.update v.processed d true⟩

/-- The connection is closed in favour of the registered one. -/
def reject (v : Party) (d : Side) : Party :=
  ⟨v.registered, Function.update v.closed d true, Function.update v.processed d true⟩

/-- Process a connection: keep a live registered one, otherwise register it. -/
def process (v : Party) (d : Side) : Party :=
  match v.registered with
  | some e => if v.closed e then v.register d else v.reject d
  | none => v.register d

/-- Forget a connection that has closed. -/
def cleanUp (v : Party) (d : Side) : Party :=
  if v.registered = some d then { v with registered := none } else v

/-- The close of a connection arrives. -/
def deliver (v : Party) (d : Side) : Party :=
  { v with closed := Function.update v.closed d true }

/-- At most one connection has been processed, and none is closed. -/
structure Fresh (v : Party) : Prop where
  closed : ∀ d, v.closed d = false
  registered : (v.registered = none ∧ ∀ d, v.processed d = false) ∨
    ∃ d, v.registered = some d ∧ v.processed d = true ∧ v.processed d.other = false

/-- The connection `e` is open, and is registered if it has been processed. -/
structure Keeps (e : Side) (v : Party) : Prop where
  closed : v.closed e = false
  registered : v.processed e = true → v.registered = some e
  processed : ∀ d, v.registered = some d → v.processed d = true

variable {v : Party} {d e : Side}

theorem Fresh.keeps (h : v.Fresh) (e : Side) : v.Keeps e := by
  cases h.registered with
  | inl hnone =>
    refine ⟨h.closed e, ?_, ?_⟩
    · simp [hnone.2]
    · simp [hnone.1]
  | inr hsome =>
    obtain ⟨f, hreg, hproc, hother⟩ := hsome
    refine ⟨h.closed e, fun he ↦ ?_, fun d hd ↦ ?_⟩
    · by_cases hef : e = f
      · rw [hreg, hef]
      · rw [Side.eq_other_of_ne hef, hother] at he
        cases he
    · rw [hreg] at hd
      cases hd
      exact hproc

theorem Keeps.processed_eq_false (h : v.Keeps e) (hreg : v.registered ≠ some e) :
    v.processed e = false := by
  cases hproc : v.processed e with
  | false => rfl
  | true => exact absurd (h.registered hproc) hreg

/-- Either the connection is registered and no live one was, or it is closed and a live one
is kept. -/
theorem process_cases (v : Party) (d : Side) :
    (v.process d = v.register d ∧ ∀ e, v.registered = some e → v.closed e = true) ∨
      (v.process d = v.reject d ∧ ∃ e, v.registered = some e ∧ v.closed e = false) := by
  unfold process
  cases hreg : v.registered with
  | none => exact .inl ⟨rfl, fun _ heq ↦ by cases heq⟩
  | some e =>
    cases hclosed : v.closed e with
    | true => exact .inl ⟨by simp [hclosed], by rintro e ⟨⟩; exact hclosed⟩
    | false => exact .inr ⟨by simp [hclosed], e, rfl, hclosed⟩

theorem processed_process (v : Party) (d : Side) :
    (v.process d).processed = Function.update v.processed d true := by
  cases v.process_cases d with
  | inl hreg => rw [hreg.1, register]
  | inr hrej => rw [hrej.1, reject]

/-- A closed connection stays closed when one is processed. -/
theorem closed_process {f : Side} (h : v.closed f = true) : (v.process d).closed f = true := by
  cases v.process_cases d with
  | inl hreg => rw [hreg.1]; exact h
  | inr hrej =>
    rw [hrej.1]
    by_cases hfd : f = d
    · simp [Party.reject, hfd]
    · simpa [Party.reject, Function.update_of_ne hfd] using h

@[simp] theorem processed_cleanUp (v : Party) (d : Side) :
    (v.cleanUp d).processed = v.processed := by
  unfold cleanUp
  split <;> rfl

@[simp] theorem closed_cleanUp (v : Party) (d : Side) : (v.cleanUp d).closed = v.closed := by
  unfold cleanUp
  split <;> rfl

/-- A closed connection stays closed when a close is delivered. -/
theorem closed_deliver {f : Side} (h : v.closed f = true) : (v.deliver d).closed f = true := by
  by_cases hfd : f = d
  · simp [deliver, hfd]
  · simpa [deliver, Function.update_of_ne hfd] using h

theorem Keeps.register (h : v.Keeps e) (hreg : v.registered ≠ some e) :
    (v.register d).Keeps e := by
  refine ⟨h.closed, fun he ↦ ?_, fun f hf ↦ ?_⟩
  · by_cases hed : e = d
    · exact congrArg some hed.symm
    · simp [Party.register, Function.update_of_ne hed, h.processed_eq_false hreg] at he
  · cases hf
    exact Function.update_self ..

theorem Keeps.reject (h : v.Keeps e) (hde : d ≠ e) : (v.reject d).Keeps e := by
  refine ⟨?_, fun he ↦ ?_, fun f hf ↦ ?_⟩
  · simpa [Party.reject, Function.update_of_ne hde.symm] using h.closed
  · simp only [Party.reject, Function.update_of_ne hde.symm] at he
    exact h.registered he
  · by_cases hfd : f = d
    · simp [Party.reject, hfd]
    · simpa [Party.reject, Function.update_of_ne hfd] using h.processed f hf

theorem Keeps.cleanUp (h : v.Keeps e) (hde : d ≠ e) : (v.cleanUp d).Keeps e := by
  unfold Party.cleanUp
  split
  · next hreg =>
    have hproc := h.processed_eq_false (by simp [hreg, hde])
    exact ⟨h.closed, by simp [hproc], fun _ heq ↦ by cases heq⟩
  · exact h

theorem Keeps.deliver (h : v.Keeps e) (hde : d ≠ e) : (v.deliver d).Keeps e :=
  ⟨by simpa [Party.deliver, Function.update_of_ne hde.symm] using h.closed, h.registered,
    h.processed⟩

end Party

/-! ### Steps of the two parties -/

/-- A step: a party processes a connection that it has not yet processed, forgets a closed
one, or is told of a close. -/
inductive Step where
  | stutter
  | process (x d : Side)
  | cleanUp (x d : Side)
  | deliver (x d : Side)

namespace Step

variable (V : Side → Party)

/-- When a step is possible. -/
def Enabled : Step → Prop
  | stutter => True
  | process x d => (V x).processed d = false
  | cleanUp x d => (V x).closed d = true
  | deliver x d => (V x.other).closed d = true

/-- The parties after a step. -/
def run : Step → Side → Party
  | stutter => V
  | process x d => Function.update V x ((V x).process d)
  | cleanUp x d => Function.update V x ((V x).cleanUp d)
  | deliver x d => Function.update V x ((V x).deliver d)

/-- The party closes a connection in favour of one that the other party has closed. -/
def ClosesBoth : Step → Prop
  | process x _ => ∃ e, (V x).registered = some e ∧ (V x).closed e = false ∧
      (V x.other).closed e = true
  | _ => False

end Step

variable {V : Side → Party} {e : Side} {step : Step}

/-- Both parties have one connection registered, open at both ends. -/
def Agree (V : Side → Party) : Prop :=
  ∃ e, ∀ x, (V x).closed e = false ∧ (V x).registered = some e

/-- All connections are processed and all closes are delivered. -/
def Settled (V : Side → Party) : Prop :=
  (∀ x d, (V x).processed d = true) ∧ ∀ x y d, (V x).closed d = (V y).closed d

/-- Each connection is closed at an end. -/
def Broken (V : Side → Party) : Prop :=
  ∀ d, ∃ x, (V x).closed d = true

/-- One connection is open at both ends and the other one is closed at an end. -/
def Decided (V : Side → Party) : Prop :=
  ∃ e, (∀ x, (V x).Keeps e) ∧ ∃ x, (V x).closed e.other = true

/-- Nothing is closed yet, or it is decided which connection stays. -/
def Good (V : Side → Party) : Prop :=
  (∀ x, (V x).Fresh) ∨ Decided V

private theorem forall_update {P : Party → Prop} {x : Side} {v : Party} (hv : P v)
    (h : ∀ y, P (V y)) (y : Side) : P (Function.update V x v y) := by
  by_cases hyx : y = x
  · rwa [hyx, Function.update_self]
  · rw [Function.update_of_ne hyx]
    exact h y

private theorem closed_update {x : Side} {v : Party} {d : Side}
    (hv : (V x).closed d = true → v.closed d = true) (h : ∃ y, (V y).closed d = true) :
    ∃ y, (Function.update V x v y).closed d = true := by
  obtain ⟨y, hy⟩ := h
  refine ⟨y, ?_⟩
  by_cases hyx : y = x
  · subst hyx
    rw [Function.update_self]
    exact hv hy
  · rwa [Function.update_of_ne hyx]

private theorem run_closed {d : Side} (h : ∃ x, (V x).closed d = true) :
    ∃ x, (step.run V x).closed d = true := by
  cases step with
  | stutter => exact h
  | process x f => exact closed_update Party.closed_process h
  | cleanUp x f => exact closed_update (by simp) h
  | deliver x f => exact closed_update Party.closed_deliver h

theorem Broken.run (h : Broken V) : Broken (step.run V) :=
  fun d ↦ run_closed (h d)

theorem Broken.not_agree (h : Broken V) : ¬Agree V := by
  rintro ⟨e, he⟩
  obtain ⟨x, hx⟩ := h e
  rw [(he x).1] at hx
  cases hx

theorem Good.agree (h : Good V) (hsettled : Settled V) : Agree V := by
  cases h with
  | inl hfresh =>
    -- A party cannot have processed both connections without closing one.
    cases (hfresh .a).registered with
    | inl hnone => exact absurd (hsettled.1 .a .a) (by simp [hnone.2])
    | inr hsome =>
      obtain ⟨d, -, -, hother⟩ := hsome
      exact absurd (hsettled.1 .a d.other) (by simp [hother])
  | inr hdecided =>
    obtain ⟨e, hkeeps, -⟩ := hdecided
    exact ⟨e, fun x ↦ ⟨(hkeeps x).closed, (hkeeps x).registered (hsettled.1 x e)⟩⟩

/-- The first connection that a party processes is registered; the second one is closed. -/
theorem Party.Fresh.process {v : Party} (h : v.Fresh) (d : Side) :
    (v.process d).Fresh ∨ v.process d = v.reject d := by
  cases v.process_cases d with
  | inr hrej => exact .inr hrej.1
  | inl hreg =>
    rw [hreg.1]
    refine .inl ⟨h.closed, .inr ⟨d, rfl, Function.update_self .., ?_⟩⟩
    show Function.update v.processed d true d.other = false
    rw [Function.update_of_ne d.other_ne]
    cases h.registered with
    | inl hnone => exact hnone.2 d.other
    | inr hsome =>
      obtain ⟨e, he, -, -⟩ := hsome
      exact absurd (hreg.2 e he) (by simp [h.closed])

private theorem good_run_fresh (h : ∀ x, (V x).Fresh) (hstep : step.Enabled V) :
    Good (step.run V) := by
  cases step with
  | stutter => exact .inl h
  | process x d =>
    cases (h x).process d with
    | inl hfresh => exact .inl (forall_update hfresh h)
    | inr hrej =>
      refine .inr ⟨d.other, forall_update ?_ fun y ↦ (h y).keeps d.other, x, ?_⟩
      · rw [hrej]
        exact ((h x).keeps d.other).reject d.other_ne.symm
      · simp [Step.run, hrej, Party.reject]
  | cleanUp x d =>
    rw [Step.Enabled, (h x).closed] at hstep
    cases hstep
  | deliver x d =>
    rw [Step.Enabled, (h x.other).closed] at hstep
    cases hstep

/-- In the decided state a party that would close the connection `e` closes both. -/
private theorem closesBoth_of_live {x f : Side} (hkeeps : ∀ x, (V x).Keeps e)
    (hclosed : ∃ y, (V y).closed e.other = true) (he : (V x).processed e = false)
    (hf : (V x).registered = some f) (hlive : (V x).closed f = false) :
    (V x.other).closed f = true := by
  have hfe : f ≠ e := by
    rintro rfl
    simp [(hkeeps x).processed f hf] at he
  rw [Side.eq_other_of_ne hfe] at hlive ⊢
  obtain ⟨y, hy⟩ := hclosed
  have hyx : y ≠ x := by
    rintro rfl
    simp [hlive] at hy
  rwa [← Side.eq_other_of_ne hyx]

private theorem decided_run (h : Decided V) (hstep : step.Enabled V)
    (hboth : ¬step.ClosesBoth V) : Decided (step.run V) := by
  obtain ⟨e, hkeeps, hclosed⟩ := h
  refine ⟨e, ?_, run_closed hclosed⟩
  have hne : ∀ {x d}, (V x).closed d = true → d ≠ e := by
    rintro x d hd rfl
    simp [(hkeeps x).closed] at hd
  cases step with
  | stutter => exact hkeeps
  | process x d =>
    refine forall_update ?_ hkeeps
    cases (V x).process_cases d with
    | inl hreg =>
      rw [hreg.1]
      apply (hkeeps x).register
      intro he
      simpa [(hkeeps x).closed] using hreg.2 e he
    | inr hrej =>
      obtain ⟨hrej, f, hf, hlive⟩ := hrej
      rw [hrej]
      apply (hkeeps x).reject
      rintro rfl
      exact hboth ⟨f, hf, hlive, closesBoth_of_live hkeeps hclosed hstep hf hlive⟩
  | cleanUp x d => exact forall_update ((hkeeps x).cleanUp (hne hstep)) hkeeps
  | deliver x d => exact forall_update ((hkeeps x).deliver (hne hstep)) hkeeps

theorem Good.run (h : Good V) (hstep : step.Enabled V) (hboth : ¬step.ClosesBoth V) :
    Good (step.run V) := by
  cases h with
  | inl hfresh => exact good_run_fresh hfresh hstep
  | inr hdecided => exact .inr (decided_run hdecided hstep hboth)

/-- A party that closes a connection in favour of a closed one leaves none open. -/
theorem Good.broken (h : Good V) (hstep : step.Enabled V) (hboth : step.ClosesBoth V) :
    Broken (step.run V) := by
  cases step with
  | process x d =>
    obtain ⟨f, hf, hlive, hclosed⟩ := hboth
    cases h with
    | inl hfresh => simp [(hfresh x.other).closed] at hclosed
    | inr hdecided =>
      obtain ⟨e, hkeeps, hother⟩ := hdecided
      have hproc : (V x).processed f = true := (hkeeps x).processed f hf
      have hfd : f ≠ d := by
        rintro rfl
        exact absurd hstep (by simp [Step.Enabled, hproc])
      have hrej : (V x).process d = (V x).reject d := by
        cases (V x).process_cases d with
        | inl hreg => simp [hreg.2 f hf] at hlive
        | inr hrej => exact hrej.1
      intro c
      by_cases hcd : c = d
      · exact ⟨x, by simp [Step.run, hrej, Party.reject, hcd]⟩
      · have hcf : c = f := by
          rw [Side.eq_other_of_ne hcd, Side.eq_other_of_ne hfd]
        exact run_closed ⟨x.other, hcf ▸ hclosed⟩
  | _ => exact hboth.elim

/-- The parties agree in the end exactly when no party closes a connection in favour of one
that the other party has closed. -/
theorem agree_iff {steps : List Step} (hstart : ∀ x, (V x).Fresh)
    (henabled : EachStep (fun V step ↦ step.run V) (fun V step ↦ step.Enabled V) V steps)
    (hsettled : Settled (finalState (fun V step ↦ step.run V) V steps)) :
    Agree (finalState (fun V step ↦ step.run V) V steps) ↔
      EachStep (fun V step ↦ step.run V) (fun V step ↦ ¬step.ClosesBoth V) V steps := by
  have hbroken : ∀ (steps : List Step) (V : Side → Party), Broken V →
      Broken (finalState (fun V step ↦ step.run V) V steps) := by
    intro steps
    induction steps with
    | nil => exact fun V h ↦ h
    | cons step steps ih => exact fun V h ↦ ih _ h.run
  have hgood : Good V := .inl hstart
  clear hstart
  induction steps generalizing V with
  | nil => exact iff_of_true (hgood.agree hsettled) trivial
  | cons step steps ih =>
    by_cases hboth : step.ClosesBoth V
    · have hfinal := hbroken steps _ (hgood.broken henabled.1 hboth)
      exact iff_of_false hfinal.not_agree fun h ↦ h.1 hboth
    · exact (ih henabled.2 hsettled (hgood.run henabled.1 hboth)).trans
        (and_iff_right hboth).symm

end KeepExisting
