import HarddriveParty.Base.Runs
import Mathlib.Data.UInt
import Mathlib.Order.Monotone.Basic
import Mathlib.Tactic.Common

/-!
# The speed of a transfer

Model of `src/connections/speedometer.rs`. Instants are nanoseconds of the clock, which never goes
back, and every reading of it is an input. The speed itself is a quotient of floating-point
numbers, which is left to a parameter.
-/

namespace HarddriveParty

open Runs

namespace Speedometer

/-- `Entry` (`src/connections/speedometer.rs:13`). -/
structure Entry where
  timestamp : Nat
  value : UInt64
  deriving DecidableEq, Repr

/-- `usize::saturating_sub`. -/
def saturatingSub (a b : UInt64) : UInt64 := if b ≤ a then a - b else 0

/-- The sum of the values of entries. -/
def sumValues (entries : List Entry) : Nat := (entries.map fun e ↦ e.value.toNat).sum

end Speedometer

/-- `Speedometer` (`src/connections/speedometer.rs:20`). -/
structure Speedometer where
  windowSize : Nat
  queue : List Speedometer.Entry
  totalValue : UInt64
  deriving DecidableEq, Repr

namespace Speedometer

/-- `Speedometer::new`. -/
def new (windowSize : Nat) : Speedometer := ⟨windowSize, [], 0⟩

/-- `Speedometer::entry`. -/
def entry (meter : Speedometer) (now : Nat) (value : UInt64) : Speedometer :=
  { meter with
    totalValue := meter.totalValue + value
    queue := meter.queue ++ [⟨now, value⟩] }

/-- The loop that drops expired entries from the front (`src/connections/speedometer.rs:68`). Each
entry is looked at with a reading of the clock of its own; the last number is that of the last
reading. -/
def dropExpired (windowSize : Nat) (clock : Nat → Nat) :
    Nat → List Entry → UInt64 → List Entry × UInt64 × Nat
  | i, [], total => ([], total, i)
  | i, front :: rest, total =>
    if clock i - front.timestamp > windowSize then
      dropExpired windowSize clock (i + 1) rest (saturatingSub total front.value)
    else (front :: rest, total, i)

/-- The speed that a queue shows: no entry, no speed. `rate` is the quotient of the total by the
time since the oldest entry. -/
def speed (rate : UInt64 → Nat → UInt64) (total : UInt64) (now : Nat) : List Entry → UInt64
  | [] => 0
  | oldest :: _ => rate total (now - oldest.timestamp)

/-- `Speedometer::measure`. -/
def measure (rate : UInt64 → Nat → UInt64) (meter : Speedometer) (clock : Nat → Nat) :
    Speedometer × UInt64 :=
  let (queue, total, i) := dropExpired meter.windowSize clock 0 meter.queue meter.totalValue
  ({ meter with queue := queue, totalValue := total }, speed rate total (clock (i + 1)) queue)

/-! ### Expired entries -/

/-- The entries that are in the window at a time. -/
def inWindow (windowSize now : Nat) (entries : List Entry) : List Entry :=
  entries.filter fun e ↦ now - e.timestamp ≤ windowSize

/-- What has expired at one time has expired at every later one. -/
theorem inWindow_inWindow {windowSize t now : Nat} (h : t ≤ now) (entries : List Entry) :
    inWindow windowSize now (inWindow windowSize t entries) = inWindow windowSize now entries := by
  rw [inWindow, inWindow, inWindow, List.filter_filter]
  refine List.filter_congr fun e _ ↦ ?_
  rw [← Bool.decide_and]
  exact decide_eq_decide.mpr ⟨And.left, fun hnow ↦ ⟨hnow, by omega⟩⟩

theorem sumValues_cons (e : Entry) (entries : List Entry) :
    sumValues (e :: entries) = e.value.toNat + sumValues entries := by
  simp [sumValues]

theorem sumValues_append (entries entries' : List Entry) :
    sumValues (entries ++ entries') = sumValues entries + sumValues entries' := by
  simp [sumValues]

/-- Taking a value out of a total that contains it leaves the rest. -/
theorem saturatingSub_eq {total value : UInt64} {rest : Nat}
    (h : total.toNat = value.toNat + rest) : (saturatingSub total value).toNat = rest := by
  have hle : value ≤ total := UInt64.le_iff_toNat_le.mpr (by omega)
  rw [saturatingSub, if_pos hle, UInt64.toNat_sub_of_le _ _ hle]
  omega

/-- The loop keeps the entries that are in the window when it stops, and their sum. -/
theorem dropExpired_spec {windowSize : Nat} {clock : Nat → Nat} (hclock : Monotone clock)
    {queue : List Entry} (hsorted : queue.Pairwise fun e e' ↦ e.timestamp ≤ e'.timestamp)
    {total : UInt64} (htotal : total.toNat = sumValues queue) (i : Nat) :
    ∃ j total', i ≤ j ∧
      dropExpired windowSize clock i queue total =
        (inWindow windowSize (clock j) queue, total', j) ∧
      total'.toNat = sumValues (inWindow windowSize (clock j) queue) := by
  induction queue generalizing i total with
  | nil => exact ⟨i, total, Nat.le_refl i, rfl, htotal⟩
  | cons front rest ih =>
    obtain ⟨hfront, hrest⟩ := List.pairwise_cons.mp hsorted
    rw [dropExpired]
    split
    · next hexpired =>
      rw [sumValues_cons] at htotal
      obtain ⟨j, total', hij, hdrop, hsum⟩ := ih hrest (saturatingSub_eq htotal) (i + 1)
      -- what has expired at one reading has expired at every later one
      have hlater : ¬clock j - front.timestamp ≤ windowSize := by
        have hle : clock i ≤ clock j := hclock (by omega)
        omega
      have hwindow : inWindow windowSize (clock j) (front :: rest) =
          inWindow windowSize (clock j) rest :=
        List.filter_cons_of_neg fun hkept ↦ hlater (of_decide_eq_true hkept)
      exact ⟨j, total', by omega, by rw [hdrop, hwindow], by rw [hsum, hwindow]⟩
    · next hkept =>
      have hall : inWindow windowSize (clock i) (front :: rest) = front :: rest := by
        refine List.filter_eq_self.mpr fun e hmem ↦ decide_eq_true ?_
        rcases List.mem_cons.mp hmem with rfl | hmem
        · omega
        · have hle := hfront e hmem
          omega
      exact ⟨i, total, Nat.le_refl i, by rw [hall], by rw [hall, htotal]⟩

/-! ### Runs -/

/-- A speedometer in use: all entries that were made, and the last reading of the clock. -/
structure InUse where
  meter : Speedometer
  recorded : List Entry
  now : Nat

/-- A data point is entered, or the speed is measured. -/
inductive Action where
  | entry (now : Nat) (value : UInt64)
  | measure (clock : Nat → Nat)

namespace InUse

/-- A speedometer that has just been made. -/
def start (windowSize now : Nat) : InUse := ⟨new windowSize, [], now⟩

/-- The number of the reading at which a measurement has stopped dropping entries. -/
def lastReading (s : InUse) (clock : Nat → Nat) : Nat :=
  (dropExpired s.meter.windowSize clock 0 s.meter.queue s.meter.totalValue).2.2

/-- The speedometer after an action. -/
def step (rate : UInt64 → Nat → UInt64) (s : InUse) : Action → InUse
  | .entry now value => ⟨s.meter.entry now value, s.recorded ++ [⟨now, value⟩], now⟩
  | .measure clock =>
    ⟨(s.meter.measure rate clock).1, s.recorded, clock (s.lastReading clock + 1)⟩

/-- The clock does not go back, and the values in the queue do not overflow. -/
def Proper (s : InUse) : Action → Prop
  | .entry now value => s.now ≤ now ∧ sumValues s.meter.queue + value.toNat < 2 ^ 64
  | .measure clock => s.now ≤ clock 0 ∧ Monotone clock

/-- What a measurement gives: the speedometer keeps the entries, of all that were made, that are in
the window when it stops to drop them, its total is the sum of their values, and the speed is that
of these entries. -/
def Measures (rate : UInt64 → Nat → UInt64) (windowSize : Nat) (s : InUse) : Action → Prop
  | .entry _ _ => True
  | .measure clock =>
    let kept := inWindow windowSize (clock (s.lastReading clock)) s.recorded
    (s.meter.measure rate clock).1.queue = kept ∧
    (s.meter.measure rate clock).1.totalValue.toNat = sumValues kept ∧
    (s.meter.measure rate clock).2 =
      speed rate (UInt64.ofNat (sumValues kept)) (clock (s.lastReading clock + 1)) kept

/-- What holds of a speedometer in every state. -/
structure Exact (windowSize : Nat) (s : InUse) : Prop where
  size : s.meter.windowSize = windowSize
  sorted : s.recorded.Pairwise fun e e' ↦ e.timestamp ≤ e'.timestamp
  past : ∀ e ∈ s.recorded, e.timestamp ≤ s.now
  queue : ∃ t ≤ s.now, s.meter.queue = inWindow windowSize t s.recorded
  total : s.meter.totalValue.toNat = sumValues s.meter.queue

variable {rate : UInt64 → Nat → UInt64} {windowSize : Nat} {s : InUse}

theorem Exact.entry (h : s.Exact windowSize) {now : Nat} {value : UInt64} (hnow : s.now ≤ now)
    (hfits : sumValues s.meter.queue + value.toNat < 2 ^ 64) :
    (s.step rate (.entry now value)).Exact windowSize where
  size := h.size
  sorted := by
    refine List.pairwise_append.mpr
      ⟨h.sorted, List.pairwise_singleton _ _, fun e hmem e' hmem' ↦ ?_⟩
    obtain rfl := List.mem_singleton.mp hmem'
    exact Nat.le_trans (h.past e hmem) hnow
  past e hmem := by
    rcases List.mem_append.mp hmem with hmem | hmem
    · exact Nat.le_trans (h.past e hmem) hnow
    · obtain rfl := List.mem_singleton.mp hmem
      exact Nat.le_refl _
  queue := by
    obtain ⟨t, ht, hqueue⟩ := h.queue
    have hnew : inWindow windowSize t [⟨now, value⟩] = [⟨now, value⟩] :=
      List.filter_cons_of_pos (decide_eq_true (show t - now ≤ windowSize by omega))
    refine ⟨t, Nat.le_trans ht hnow, ?_⟩
    show s.meter.queue ++ _ = inWindow windowSize t (s.recorded ++ _)
    rw [hqueue, ← hnew, inWindow, inWindow, inWindow, List.filter_append, List.filter_filter]
    simp
  total := by
    show (s.meter.totalValue + value).toNat = sumValues (s.meter.queue ++ [⟨now, value⟩])
    rw [sumValues_append, UInt64.toNat_add, h.total, Nat.mod_eq_of_lt hfits]
    rfl

/-- The state after a measurement, and the speed. -/
theorem Exact.measure (h : s.Exact windowSize) {clock : Nat → Nat} (hnow : s.now ≤ clock 0)
    (hclock : Monotone clock) :
    (s.step rate (.measure clock)).Exact windowSize ∧
      s.Measures rate windowSize (.measure clock) := by
  obtain ⟨t, ht, hqueue⟩ := h.queue
  obtain ⟨j, total, -, hdrop, hsum⟩ := dropExpired_spec hclock
    (hqueue ▸ h.sorted.filter _ : s.meter.queue.Pairwise _) h.total 0
  have hlast : s.lastReading clock = j := by rw [lastReading, h.size, hdrop]
  have hkept : inWindow windowSize (clock j) s.meter.queue =
      inWindow windowSize (clock j) s.recorded := by
    have hle : clock 0 ≤ clock j := hclock (Nat.zero_le j)
    rw [hqueue, inWindow_inWindow (by omega)]
  rw [hkept] at hdrop hsum
  have hmeasure : s.meter.measure rate clock =
      (⟨windowSize, inWindow windowSize (clock j) s.recorded, total⟩,
        speed rate total (clock (j + 1)) (inWindow windowSize (clock j) s.recorded)) := by
    rw [Speedometer.measure, h.size, hdrop]
  have hlater : clock j ≤ clock (j + 1) := hclock (Nat.le_succ j)
  constructor
  · rw [step, hmeasure, hlast]
    refine ⟨rfl, h.sorted, fun e hmem ↦ ?_, ⟨clock j, hlater, rfl⟩, hsum⟩
    have hle : clock 0 ≤ clock (j + 1) := hclock (Nat.zero_le _)
    exact (h.past e hmem).trans (hnow.trans hle)
  · rw [Measures, hlast, hmeasure]
    refine ⟨rfl, hsum, ?_⟩
    rw [← hsum, UInt64.ofNat_toNat]

/-- In every run of a speedometer in which the clock does not go back and the values in its queue
do not overflow, however its entries and measurements come, each measurement is exact. -/
theorem measures_exactly (rate : UInt64 → Nat → UInt64) {windowSize now : Nat}
    {actions : List Action}
    (hproper : EachStep (step rate) Proper (start windowSize now) actions) :
    EachStep (step rate) (Measures rate windowSize) (start windowSize now) actions := by
  have hstart : (start windowSize now).Exact windowSize :=
    ⟨rfl, List.Pairwise.nil, fun e hmem ↦ (by cases hmem), ⟨now, Nat.le_refl now, rfl⟩, rfl⟩
  refine eachStep_of_invariant hstart hproper (fun s action h haction ↦ ?_)
    fun s action h haction ↦ ?_
  · cases action with
    | entry now value => exact h.entry haction.1 haction.2
    | measure clock => exact (h.measure haction.1 haction.2).1
  · cases action with
    | entry now value => trivial
    | measure clock => exact (h.measure haction.1 haction.2).2

/-- A speedometer with two entries, three seconds apart. -/
def twoEntries : InUse :=
  finalState (step fun _ _ ↦ 0) (start 5000000000 0) [.entry 0 10, .entry 3000000000 20]

/-- Bytes per second, in whole numbers. -/
def perSecond (total : UInt64) (elapsed : Nat) : UInt64 :=
  total * 1000000000 / UInt64.ofNat (max elapsed 1000000)

/-- After six seconds the first entry has expired: twenty bytes are left, in three seconds. -/
theorem measures_exactly_two :
    (twoEntries.meter.measure perSecond fun _ ↦ 6000000000).2 = 6 := by
  have hproper : EachStep (step perSecond) Proper (start 5000000000 0)
      [.entry 0 10, .entry 3000000000 20, .measure fun _ ↦ 6000000000] :=
    ⟨⟨by decide, by decide⟩, ⟨by decide, by decide⟩, ⟨by decide, monotone_const⟩, trivial⟩
  obtain ⟨-, -, ⟨-, -, hspeed⟩, -⟩ := measures_exactly perSecond hproper
  exact hspeed.trans (by decide)

end InUse

end Speedometer

end HarddriveParty
