import Mathlib.Data.List.Basic

/-!
# Datagrams between two parties

Library module. A record of what has happened on the wire, in order: datagrams that were sent, and
datagrams that a party has taken. A network can lose, delay, duplicate and reorder datagrams, so
whatever has been sent can be taken at any later time. A party that replies only after it has heard
of the other makes a reply evidence of a path in both directions.
-/

/-- A datagram was sent to an address, or one from there was taken. -/
inductive Wire.Event (ι μ : Type) where
  | sent (source dest : ι) (data : μ)
  | received (dest source : ι) (data : μ)
  deriving DecidableEq

namespace Wire

variable {ι μ : Type}

/-- The party at `x` has taken a datagram that `y` had sent before. -/
def Heard (x y : ι) (wire : List (Event ι μ)) : Prop :=
  ∃ p, [.sent y x p, .received x y p].Sublist wire

/-- A datagram of `x` was taken by `y`, and one that `y` sent after that was taken by `x`. -/
def TwoWay (x y : ι) (wire : List (Event ι μ)) : Prop :=
  ∃ p q, [.sent x y p, .received y x p, .sent y x q, .received x y q].Sublist wire

/-- Whenever `y` has sent a reply to `x`, it had heard of `x` before. -/
def RepliesAfterHearing (isReply : μ → Prop) (y x : ι) (wire : List (Event ι μ)) : Prop :=
  ∀ before q after, isReply q → wire = before ++ .sent y x q :: after → Heard y x before

variable {isReply : μ → Prop} {x y : ι} {wire : List (Event ι μ)}

theorem Heard.append (h : Heard x y wire) (more : List (Event ι μ)) : Heard x y (wire ++ more) := by
  obtain ⟨p, hp⟩ := h
  exact ⟨p, hp.trans (List.sublist_append_left wire more)⟩

theorem TwoWay.append (h : TwoWay x y wire) (more : List (Event ι μ)) :
    TwoWay x y (wire ++ more) := by
  obtain ⟨p, q, hpq⟩ := h
  exact ⟨p, q, hpq.trans (List.sublist_append_left wire more)⟩

/-- Taking a datagram that has been sent is hearing. -/
theorem heard_of_received {p : μ} (hsent : .sent y x p ∈ wire) :
    Heard x y (wire ++ [.received x y p]) :=
  ⟨p, (List.singleton_sublist.mpr hsent).append (List.Sublist.refl [Event.received x y p])⟩

theorem repliesAfterHearing_nil : RepliesAfterHearing isReply y x ([] : List (Event ι μ)) := by
  intro before q after _ hwire
  simp at hwire

/-- A party goes on replying only after hearing when it has heard before each reply. -/
theorem RepliesAfterHearing.concat (h : RepliesAfterHearing isReply y x wire)
    {event : Event ι μ} (hevent : ∀ q, event = .sent y x q → isReply q → Heard y x wire) :
    RepliesAfterHearing isReply y x (wire ++ [event]) := by
  intro before q after hq hwire
  rcases List.eq_nil_or_concat after with rfl | ⟨after, last, rfl⟩
  · obtain ⟨rfl, hlast⟩ := List.append_inj' hwire rfl
    exact hevent q (List.singleton_inj.mp hlast) hq
  · rw [List.concat_eq_append, ← List.cons_append, ← List.append_assoc] at hwire
    obtain ⟨hwire, -⟩ := List.append_inj' hwire rfl
    exact h before q after hq hwire

/-- Taking a reply is evidence of a path in both directions. -/
theorem RepliesAfterHearing.twoWay (h : RepliesAfterHearing isReply y x wire) {q : μ}
    (hreply : isReply q) (hsent : .sent y x q ∈ wire) :
    TwoWay x y (wire ++ [.received x y q]) := by
  obtain ⟨before, after, rfl⟩ := List.append_of_mem hsent
  obtain ⟨p, hp⟩ := h before q after hreply rfl
  refine ⟨p, q, ?_⟩
  have hq : [.sent y x q].Sublist (.sent y x q :: after) :=
    List.singleton_sublist.mpr List.mem_cons_self
  exact (hp.append hq).append (List.Sublist.refl [Event.received x y q])

end Wire
