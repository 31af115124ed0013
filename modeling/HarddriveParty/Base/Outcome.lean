/-!
# Results that may panic

Library module. A fallible function returns a value, returns an error, or panics.
The bind laws below take a chain of fallible steps apart one step at a time.
-/

/-- Why a fallible function gave no value. -/
inductive Fault (ε : Type) where
  | error (e : ε)
  | panic (reason : String)
  deriving DecidableEq, Repr

/-- The outcome of a function that returns `Result<α, ε>` or panics. -/
abbrev Outcome (ε α : Type) := Except (Fault ε) α

namespace Outcome

variable {ε α β : Type}

/-- `ok_or`: a missing value is an error. -/
def okOr (e : ε) : Option α → Outcome ε α
  | some a => .ok a
  | none => .error (.error e)

/-- A missing value is a panic. -/
def orPanic (reason : String) : Option α → Outcome ε α
  | some a => .ok a
  | none => .error (.panic reason)

/-- An early return with an error unless a condition holds. -/
def ensure (p : Prop) [Decidable p] (e : ε) : Outcome ε Unit :=
  if p then .ok () else .error (.error e)

/-- `Result::ok`: the value if there is one. -/
def toOption : Outcome ε α → Option α
  | .ok a => some a
  | .error _ => none

/-- The call panicked. -/
def Panicked (r : Outcome ε α) : Prop := ∃ reason, r = .error (.panic reason)

/-- A value is kept. -/
@[simp] theorem toOption_ok (a : α) : toOption (.ok a : Outcome ε α) = some a := rfl

/-- Only a value gives a value. -/
theorem toOption_eq_some_iff {r : Outcome ε α} {a : α} : r.toOption = some a ↔ r = .ok a := by
  cases r with
  | ok b => simp
  | error e => simp [toOption]

/-- A value is not a panic. -/
@[simp] theorem not_panicked_ok (a : α) : ¬ Panicked (.ok a : Outcome ε α) := by
  rintro ⟨reason, h⟩
  cases h

/-- A returned error is not a panic. -/
@[simp] theorem not_panicked_error (e : ε) : ¬ Panicked (.error (.error e) : Outcome ε α) := by
  rintro ⟨reason, h⟩
  cases h

/-- A panic is a panic. -/
@[simp] theorem panicked_panic (reason : String) :
    Panicked (.error (.panic reason) : Outcome ε α) := ⟨reason, rfl⟩

/-- `okOr` never panics. -/
@[simp] theorem not_panicked_okOr (e : ε) (a : Option α) : ¬ Panicked (okOr e a) := by
  cases a with
  | none => exact not_panicked_error e
  | some a => exact not_panicked_ok a

/-- A condition that holds lets the call go on. -/
@[simp] theorem ensure_of {p : Prop} [Decidable p] (h : p) (e : ε) :
    ensure p e = .ok () := if_pos h

/-- Passing a check means that its condition holds. -/
@[simp] theorem ensure_eq_ok_iff {p : Prop} [Decidable p] (e : ε) (u : Unit) :
    ensure p e = .ok u ↔ p := by
  unfold ensure
  split <;> simp_all

/-- A check never panics. -/
@[simp] theorem not_panicked_ensure {p : Prop} [Decidable p] (e : ε) :
    ¬ Panicked (ensure p e) := by
  unfold ensure
  split <;> simp

/-- `orPanic` panics exactly on a missing value. -/
@[simp] theorem panicked_orPanic (reason : String) (a : Option α) :
    Panicked (orPanic reason a : Outcome ε α) ↔ a = none := by
  cases a with
  | none => simp [orPanic]
  | some a => simp [orPanic]

/-- `okOr` gives the value that is there. -/
@[simp] theorem okOr_eq_ok_iff (e : ε) (a : Option α) (b : α) :
    okOr e a = .ok b ↔ a = some b := by
  cases a <;> simp [okOr]

/-- `orPanic` gives the value that is there. -/
@[simp] theorem orPanic_eq_ok_iff (reason : String) (a : Option α) (b : α) :
    (orPanic reason a : Outcome ε α) = .ok b ↔ a = some b := by
  cases a <;> simp [orPanic]

/-- A value is handed to the rest of the chain. -/
@[simp] theorem ok_bind (a : α) (f : α → Outcome ε β) : (.ok a : Outcome ε α) >>= f = f a := rfl

/-- A chain gives a value when every step does. -/
theorem bind_eq_ok_iff {x : Outcome ε α} {f : α → Outcome ε β} {b : β} :
    x >>= f = .ok b ↔ ∃ a, x = .ok a ∧ f a = .ok b := by
  cases x with
  | error e => simp [bind, Except.bind]
  | ok a => simp [bind, Except.bind]

/-- A chain panics at its first step, or at a later one when the first gave a value. -/
theorem panicked_bind_iff {x : Outcome ε α} {f : α → Outcome ε β} :
    Panicked (x >>= f) ↔ Panicked x ∨ ∃ a, x = .ok a ∧ Panicked (f a) := by
  cases x with
  | error e => simp [bind, Except.bind, Panicked]
  | ok a => simp [bind, Except.bind]

end Outcome
