import HarddriveParty.Shared.UiMessages
import Mathlib.Algebra.Order.BigOperators.Group.List

/-!
# Connecting with backoff

Model of `connect_with_backoff` (`src/connections/mod.rs`): the attempts to connect to a discovered
peer, of which `OutboundConnect.connect` sees only the result. Each attempt is an input, and so is
the random offset of each delay. Times are in milliseconds; all delays are multiples of five, so
that the product of a delay by 0.2 is a whole number.
-/

namespace HarddriveParty

/-- What an attempt to connect gives: it cannot be started, its handshake fails, or there is a
connection. -/
inductive ConnectAttempt (κ : Type) where
  | refused (err : String)
  | failed (err : String)
  | connected (connection : κ)

namespace Backoff

/-- `RECONNECT_MAX_ATTEMPTS`. -/
def reconnectMaxAttempts : Nat := 20

/-- `RECONNECT_INITIAL_DELAY`. -/
def reconnectInitialDelay : Nat := 1000

/-- `RECONNECT_MAX_DELAY`. -/
def reconnectMaxDelay : Nat := 120000

/-- What `gen_range` gives before each attempt but the first, for every range that it can be asked
for. -/
abbrev Rng := Nat → (jitter : Nat) → { offset : Int // -jitter ≤ offset ∧ offset ≤ jitter }

/-- `jittered` (`src/connections/mod.rs:750`). -/
def jittered (offset : (jitter : Nat) → { offset : Int // -jitter ≤ offset ∧ offset ≤ jitter })
    (delay : Nat) : Nat :=
  (delay + (offset (delay / 5)).val).toNat

variable {κ : Type} (attempts : Nat → ConnectAttempt κ) (rng : Rng) (announceAddress : String)

/-- What is returned after an attempt that ends the loop. -/
def outcome (attempt : Nat) : ConnectAttempt κ → Outcome UiServerError κ
  | .refused err => .error (.error (.connectionError ("When connecting: " ++ err)))
  | .connected connection => .ok connection
  | .failed err => .error (.error (.connectionError ("After connecting to " ++ announceAddress ++
      " (attempt " ++ toString attempt ++ "/" ++ toString reconnectMaxAttempts ++ "): " ++ err)))

/-- The loop over the attempts that remain, with how long it has slept after each. -/
def attemptLoop : Nat → Nat → Nat → Outcome UiServerError κ × List Nat
  | 0, _, _ => (.error (.panic "Loop either returns success or error"), [])
  | remaining + 1, attempt, delay =>
    match attempts attempt with
    | .refused err => (outcome announceAddress attempt (.refused err), [])
    | .connected connection => (.ok connection, [])
    | .failed err =>
      if reconnectMaxAttempts ≤ attempt then
        (outcome announceAddress attempt (.failed err), [])
      else
        let sleepFor := jittered (rng attempt) delay
        let (result, slept) :=
          attemptLoop remaining (attempt + 1) (min (delay * 2) reconnectMaxDelay)
        (result, sleepFor :: slept)

/-- `connect_with_backoff` (`src/connections/mod.rs:763`). -/
def connectWithBackoff : Outcome UiServerError κ × List Nat :=
  attemptLoop attempts rng announceAddress reconnectMaxAttempts 1 reconnectInitialDelay

/-! ### What the loop does -/

/-- The delay after an attempt: it doubles, up to two minutes. -/
def delayAfter (attempt : Nat) : Nat := min (1000 * 2 ^ (attempt - 1)) 120000

variable {attempts rng announceAddress}

theorem delayAfter_succ {attempt : Nat} (h : 1 ≤ attempt) :
    min (delayAfter attempt * 2) reconnectMaxDelay = delayAfter (attempt + 1) := by
  obtain ⟨n, rfl⟩ := Nat.exists_eq_add_of_le' h
  have hpow : 2 ^ (n + 1) = 2 * 2 ^ n := by rw [Nat.pow_succ, Nat.mul_comm]
  simp only [delayAfter, reconnectMaxDelay, Nat.add_sub_cancel, hpow]
  omega

/-- The offset is at most a fifth of the delay. -/
theorem jittered_bounds
    (offset : (jitter : Nat) → { offset : Int // -jitter ≤ offset ∧ offset ≤ jitter })
    (delay : Nat) :
    delay - delay / 5 ≤ jittered offset delay ∧ jittered offset delay ≤ delay + delay / 5 := by
  obtain ⟨hlow, hhigh⟩ := (offset (delay / 5)).property
  rw [jittered]
  omega

/-- The loop goes on until an attempt does not fail, or is the last one. -/
theorem attemptLoop_spec {remaining attempt : Nat} (hfirst : 1 ≤ attempt)
    (hlast : attempt ≤ reconnectMaxAttempts)
    (hremaining : remaining + attempt = reconnectMaxAttempts + 1) :
    ∃ k, attempt ≤ k ∧ k ≤ reconnectMaxAttempts ∧
      (∀ i, attempt ≤ i → i < k → ∃ err, attempts i = .failed err) ∧
      ((∃ err, attempts k = .failed err) → k = reconnectMaxAttempts) ∧
      attemptLoop attempts rng announceAddress remaining attempt (delayAfter attempt) =
        (outcome announceAddress k (attempts k),
          (List.range' attempt (k - attempt)).map fun i ↦ jittered (rng i) (delayAfter i)) := by
  induction remaining generalizing attempt with
  | zero => omega
  | succ remaining ih =>
    rw [attemptLoop]
    by_cases hfailed : ∃ err, attempts attempt = .failed err
    · obtain ⟨err, hattempt⟩ := hfailed
      rw [hattempt]
      dsimp only
      split
      · refine ⟨attempt, Nat.le_refl _, hlast, fun i _ _ ↦ by omega, fun _ ↦ by omega, ?_⟩
        rw [hattempt, Nat.sub_self]
        rfl
      · obtain ⟨k, hk, hkmax, hfails, hend, hloop⟩ := ih (show 1 ≤ attempt + 1 by omega)
          (by omega) (by omega)
        refine ⟨k, by omega, hkmax, fun i hi hik ↦ ?_, hend, ?_⟩
        · rcases Nat.eq_or_lt_of_le hi with rfl | hi
          · exact ⟨err, hattempt⟩
          · exact hfails i hi hik
        · have hsub : k - attempt = (k - (attempt + 1)) + 1 := by omega
          rw [delayAfter_succ hfirst, hloop, hsub, List.range'_succ]
          rfl
    · refine ⟨attempt, Nat.le_refl _, hlast, fun i _ _ ↦ by omega,
        fun hfails ↦ absurd hfails hfailed, ?_⟩
      rw [Nat.sub_self]
      cases hattempt : attempts attempt with
      | refused err => rfl
      | connected connection => rfl
      | failed err => exact absurd ⟨err, hattempt⟩ hfailed

/-- However many attempts there are, the delays after them add up to at most 1880.4 seconds. -/
theorem sum_delays_le {n : Nat} (h : n < reconnectMaxAttempts) :
    ((List.range' 1 n).map fun i ↦ jittered (rng i) (delayAfter i)).sum ≤ 1880400 := by
  have hbound (i : Nat) : jittered (rng i) (delayAfter i) ≤ delayAfter i + delayAfter i / 5 :=
    (jittered_bounds (rng i) (delayAfter i)).2
  have hsublist : ((List.range' 1 n).map fun i ↦ delayAfter i + delayAfter i / 5).Sublist
      ((List.range' 1 19).map fun i ↦ delayAfter i + delayAfter i / 5) :=
    (List.range'_sublist_right.mpr (Nat.le_of_lt_succ h)).map _
  calc _ ≤ ((List.range' 1 n).map fun i ↦ delayAfter i + delayAfter i / 5).sum :=
        List.sum_le_sum fun i _ ↦ hbound i
    _ ≤ ((List.range' 1 19).map fun i ↦ delayAfter i + delayAfter i / 5).sum :=
        hsublist.sum_le_sum fun _ _ ↦ Nat.zero_le _
    _ = 1880400 := by decide

/-- Whatever its attempts give, a connect never reaches the end of its loop. It makes up to twenty
attempts, all but the last of which fail, and returns what the last one gives; a failed attempt is
the last one only if it is the twentieth. Between two attempts it sleeps, for a delay that doubles
up to two minutes, give or take a fifth, and in all for no more than 1880.4 seconds. -/
theorem connects_with_backoff (attempts : Nat → ConnectAttempt κ) (rng : Rng)
    (announceAddress : String) :
    ∃ k, 1 ≤ k ∧ k ≤ 20 ∧ (∀ i, 1 ≤ i → i < k → ∃ err, attempts i = .failed err) ∧
      ((∃ err, attempts k = .failed err) → k = 20) ∧
      (connectWithBackoff attempts rng announceAddress).1 =
        outcome announceAddress k (attempts k) ∧
      (connectWithBackoff attempts rng announceAddress).2.length = k - 1 ∧
      (∀ i sleepFor, (connectWithBackoff attempts rng announceAddress).2[i]? = some sleepFor →
        min (1000 * 2 ^ i) 120000 * 4 ≤ sleepFor * 5 ∧
        sleepFor * 5 ≤ min (1000 * 2 ^ i) 120000 * 6) ∧
      (connectWithBackoff attempts rng announceAddress).2.sum ≤ 1880400 := by
  obtain ⟨k, hk, hkmax, hfails, hend, hloop⟩ : ∃ k, 1 ≤ k ∧ k ≤ reconnectMaxAttempts ∧ _ ∧ _ ∧
      connectWithBackoff attempts rng announceAddress = _ :=
    attemptLoop_spec (Nat.le_refl 1) (by decide) rfl
  rw [hloop]
  refine ⟨k, hk, hkmax, hfails, hend, rfl, by simp, fun i sleepFor hsleep ↦ ?_,
    sum_delays_le (by omega)⟩
  rw [List.getElem?_map] at hsleep
  obtain ⟨j, hj, rfl⟩ := Option.map_eq_some_iff.mp hsleep
  obtain ⟨hlt, rfl⟩ := List.getElem?_eq_some_iff.mp hj
  have hdelay : delayAfter (1 + i) = min (1000 * 2 ^ i) 120000 := by
    rw [delayAfter, Nat.add_sub_cancel_left]
  obtain ⟨hlow, hhigh⟩ := jittered_bounds (rng (1 + i)) (delayAfter (1 + i))
  rw [List.getElem_range', Nat.one_mul, ← hdelay]
  omega

end Backoff

end HarddriveParty
