import Mathlib.Data.Set.Basic

/-!
# A set and a view of it kept by notices

Library module. Any number of senders change a set and, in a later step, send a notice of their
change; a view is changed by the notices. A sender has at most one change to report. The view
agrees with the set, at every element about which no notice is still to come, exactly as long as
every notice that is not followed by another one about its element is true of the set.
-/

/-- A set, its view, and for each sender the element of which it has still to send a notice. -/
structure Mirror (ι α : Type) where
  members : Set α
  view : Set α
  owes : ι → Option α

namespace Mirror

variable {ι α : Type}

/-- The set in which `a` is made present or absent. -/
def put (s : Set α) (a : α) (present : Bool) : Set α :=
  {b | b = a ∧ present = true ∨ b ≠ a ∧ b ∈ s}

variable {s : Set α} {a b : α} {present : Bool}

@[simp] theorem mem_put_self : a ∈ put s a present ↔ present = true := by
  simp [put]

theorem mem_put_of_ne (h : b ≠ a) : b ∈ put s a present ↔ b ∈ s := by
  simp [put, h]

/-- What a sender does: change the set and owe the notice, send a notice that it owes or that
no change calls for, or nothing. -/
inductive Move (ι α : Type) where
  | change (i : ι) (a : α) (present : Bool)
  | send (i : ι) (a : α) (present : Bool)
  | idle

variable [DecidableEq ι] (m : Mirror ι α)

/-- The mirror after a move. -/
def step : Move ι α → Mirror ι α
  | .change i a present =>
    { m with
      members := put m.members a present
      owes := Function.update m.owes i (some a) }
  | .send i a present =>
    { m with
      view := put m.view a present
      owes := Function.update m.owes i none }
  | .idle => m

/-- A sender reports its change before anything else. -/
def Allowed : Move ι α → Prop
  | .change i _ _ => m.owes i = none
  | .send i a _ => m.owes i = none ∨ m.owes i = some a
  | .idle => True

/-- A notice is true of the set, or another one about the element is still to come. -/
def Truthful : Move ι α → Prop
  | .send i a present =>
    (∃ j, j ≠ i ∧ m.owes j = some a) ∨ (present = true ↔ a ∈ m.members)
  | _ => True

/-- The view is right about every element of which no notice is still to come. -/
def Agrees : Prop := ∀ a, (∀ i, m.owes i ≠ some a) → (a ∈ m.view ↔ a ∈ m.members)

variable {m} {i : ι} {move : Move ι α}

private theorem agrees_change (h : m.Agrees) (hi : m.owes i = none) :
    (m.step (.change i a present)).Agrees := by
  intro b hb
  have hne : b ≠ a := by
    rintro rfl
    exact hb i (Function.update_self ..)
  have hbefore : ∀ j, m.owes j ≠ some b := by
    intro j hj
    have hji : j ≠ i := by
      rintro rfl
      rw [hi] at hj
      cases hj
    exact hb j ((Function.update_of_ne hji ..).trans hj)
  exact (h b hbefore).trans (mem_put_of_ne hne).symm

private theorem agrees_send_iff (h : m.Agrees) (hi : m.owes i = none ∨ m.owes i = some a) :
    (m.step (.send i a present)).Agrees ↔ m.Truthful (.send i a present) := by
  constructor
  · intro hafter
    by_cases hother : ∃ j, j ≠ i ∧ m.owes j = some a
    · exact Or.inl hother
    · right
      have howes : ∀ j, (m.step (.send i a present)).owes j ≠ some a := by
        intro j hj
        by_cases hji : j = i
        · subst hji
          cases (Function.update_self ..).symm.trans hj
        · exact hother ⟨j, hji, (Function.update_of_ne hji ..).symm.trans hj⟩
      exact mem_put_self.symm.trans (hafter a howes)
  · intro htrue b hb
    by_cases hne : b = a
    · subst hne
      rcases htrue with ⟨j, hji, hj⟩ | htrue
      · exact absurd ((Function.update_of_ne hji ..).trans hj) (hb j)
      · exact mem_put_self.trans htrue
    · have hbefore : ∀ j, m.owes j ≠ some b := by
        intro j hj
        have hji : j ≠ i := by
          rintro rfl
          rcases hi with hi | hi
          · rw [hi] at hj
            cases hj
          · rw [hi] at hj
            exact hne (Option.some.inj hj).symm
        exact hb j ((Function.update_of_ne hji ..).trans hj)
      exact (mem_put_of_ne hne).trans (h b hbefore)

/-- A move keeps the view right exactly when its notice is. -/
theorem agrees_step_iff (h : m.Agrees) (hallowed : m.Allowed move) :
    (m.step move).Agrees ↔ m.Truthful move := by
  cases move with
  | change i a present => exact iff_of_true (agrees_change h hallowed) trivial
  | send i a present => exact agrees_send_iff h hallowed
  | idle => exact iff_of_true h trivial

/-- One mirror becomes another by an allowed move, whose notice is true exactly under the
condition. -/
def Advances (m m' : Mirror ι α) (condition : Prop) : Prop :=
  ∃ move, m.Allowed move ∧ m' = m.step move ∧ (m.Truthful move ↔ condition)

variable {m' : Mirror ι α} {condition : Prop}

/-- The view stays right exactly under the condition. -/
theorem Advances.agrees_iff (h : m.Advances m' condition) (hm : m.Agrees) :
    m'.Agrees ↔ condition := by
  obtain ⟨move, hallowed, rfl, htrue⟩ := h
  rw [agrees_step_iff hm hallowed, htrue]

theorem advances_refl : m.Advances m True :=
  ⟨.idle, trivial, rfl, Iff.rfl⟩

theorem advances_change (a : α) (present : Bool) (hi : m.owes i = none) :
    m.Advances ⟨put m.members a present, m.view, Function.update m.owes i (some a)⟩ True :=
  ⟨.change i a present, hi, rfl, Iff.rfl⟩

theorem advances_send (a : α) (present : Bool) (hi : m.owes i = none ∨ m.owes i = some a) :
    m.Advances ⟨m.members, put m.view a present, Function.update m.owes i none⟩
      ((∃ j, j ≠ i ∧ m.owes j = some a) ∨ (present = true ↔ a ∈ m.members)) :=
  ⟨.send i a present, hi, rfl, Iff.rfl⟩

end Mirror
