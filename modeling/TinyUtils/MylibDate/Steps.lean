import TinyUtils.Lib.Numbering
import TinyUtils.MylibDate
/-!
# Steps among the working days

The working days have the integers as their numbers, in their order. From a day behind the one with the number `k` and
not behind the next one, `NextNumWorkingDay` goes to the day with the number `k + n` and `PreNumWorkingDayNoToday` to
that with the number `k + 1 - n`. So a program that goes forth and back from one day only adds (`walk_returns`): two
such programs end in the order of their sums (`walk_le_iff`).

| here | there |
| --- | --- |
| `WorkStep.run` | `NextNumWorkingDay` (`:37`), `PreNumWorkingDayNoToday` (`:47`) |
| `walk`         | a program that gives the day that it gets to the next call |
-/

namespace TinyUtils.Date.MylibDate

open Loops Tally

/-- A call and the `num` that it is given. -/
inductive WorkStep where
  | next (num : Nat)
  | pre (num : Nat)

namespace WorkStep

def num : WorkStep → Nat
  | .next num => num
  | .pre num => num

/-- What it adds to the number of the day. -/
def shift : WorkStep → Int
  | .next num => num - 1
  | .pre num => -num

def run (c : MylibDate) (d : DateTime) : WorkStep → Fuelled Empty DateTime
  | .next num => c.nextNumWorkingDay d num
  | .pre num => c.preNumWorkingDayNoToday d num

end WorkStep

def walk (c : MylibDate) : DateTime → List WorkStep → Fuelled Empty DateTime
  | d, [] => pure d
  | d, s :: steps => s.run c d >>= fun e => walk c e steps

/-- What the calls add together. -/
def total (steps : List WorkStep) : Int := (steps.map WorkStep.shift).sum

theorem unbounded (c : MylibDate) : Unbounded c.Works := ⟨exists_works_ge, exists_works_le⟩

/-- **One call** goes to the day whose number is `shift` more than that of the first working day not before. -/
theorem run_returns (c : MylibDate) {d : DateTime} {k : Int} (hd : c.unbounded.Gap d.date k) {s : WorkStep}
    (hs : 1 ≤ s.num) : Returns (s.run c d) ⟨c.unbounded.item (k + s.shift + 1), d.time⟩ := by
  cases s with
  | next num =>
    obtain ⟨e, hret, htime, hforth⟩ := nextNumWorkingDay_returns c d hs
    have hdate : e.date = c.unbounded.item (k + (num - 1) + 1) := by
      rw [show k + ((num : Int) - 1) + 1 = k + num by omega]
      exact hforth.unique (hd.forth hs)
    have he : e = ⟨c.unbounded.item (k + (num - 1) + 1), d.time⟩ := DateTime.ext hdate htime
    exact he ▸ hret
  | pre num =>
    obtain ⟨e, hret, htime, hback⟩ := preNumWorkingDayNoToday_returns c d hs
    have hdate : e.date = c.unbounded.item (k + -num + 1) := by
      rw [show k + -(num : Int) + 1 = k + 1 - num by omega]
      exact hback.unique (hd.back hs)
    have he : e = ⟨c.unbounded.item (k + -num + 1), d.time⟩ := DateTime.ext hdate htime
    exact he ▸ hret

/-- **The calls add**: a program that makes at least one goes to the day whose number is the total more. -/
theorem walk_returns (c : MylibDate) {d : DateTime} {k : Int} (hd : c.unbounded.Gap d.date k) {steps : List WorkStep}
    (hne : steps ≠ []) (hpos : ∀ s ∈ steps, 1 ≤ s.num) :
    Returns (c.walk d steps) ⟨c.unbounded.item (k + total steps + 1), d.time⟩ := by
  induction steps generalizing d k with
  | nil => exact absurd rfl hne
  | cons s steps ih =>
    have hfirst := run_returns c hd (hpos s List.mem_cons_self)
    have htotal : total (s :: steps) = s.shift + total steps := by simp [total]
    rw [htotal, ← Int.add_assoc]
    apply hfirst.bind
    cases steps with
    | nil =>
      have hnone : total [] = 0 := rfl
      rw [hnone, Int.add_zero]
      exact Returns.pure _
    | cons s' steps =>
      have hgap : c.unbounded.Gap (c.unbounded.item (k + s.shift + 1)) (k + s.shift) := c.unbounded.gap_item _
      exact ih hgap (List.cons_ne_nil s' steps) fun t ht => hpos t (List.mem_cons_of_mem s ht)

/-- **Two programs from one day end in the order of what they add**, at the time of that day: which calls they make, and
in which order, does not matter. The days have no first or last one, so both programs return. -/
theorem walk_le_iff (c : MylibDate) (d : DateTime) {steps steps' : List WorkStep} (hne : steps ≠ []) (hne' : steps' ≠ [])
    (hpos : ∀ s ∈ steps, 1 ≤ s.num) (hpos' : ∀ s ∈ steps', 1 ≤ s.num) :
    ∃ e e', Returns (c.walk d steps) e ∧ Returns (c.walk d steps') e' ∧ e.time = d.time ∧ e'.time = d.time ∧
      c.isWorkingDay e = true ∧ c.isWorkingDay e' = true ∧ (e.date ≤ e'.date ↔ total steps ≤ total steps') := by
  obtain ⟨k, hk⟩ := c.unbounded.exists_gap d.date
  have hret := walk_returns c hk hne hpos
  have hret' := walk_returns c hk hne' hpos'
  refine ⟨_, _, hret, hret', rfl, rfl, c.unbounded.item_mem _, c.unbounded.item_mem _, ?_⟩
  rw [Unbounded.item_le_item]
  omega

/-- Three working days on from 5 February 2016, in one call or in two. -/
theorem walk_le_iff_february :
    ∃ e e', Returns ((init ⟨735999, 0⟩).walk ⟨735999, 0⟩ [.next 4]) e ∧
      Returns ((init ⟨735999, 0⟩).walk ⟨735999, 0⟩ [.next 6, .pre 2]) e' ∧ e.time = 0 ∧ e'.time = 0 ∧
      (init ⟨735999, 0⟩).isWorkingDay e = true ∧ (init ⟨735999, 0⟩).isWorkingDay e' = true ∧
      (e.date ≤ e'.date ↔ total [.next 4] ≤ total [.next 6, .pre 2]) :=
  walk_le_iff (init ⟨735999, 0⟩) ⟨735999, 0⟩ (List.cons_ne_nil _ _) (List.cons_ne_nil _ _) (by simp [WorkStep.num])
    (by simp [WorkStep.num])

end TinyUtils.Date.MylibDate
