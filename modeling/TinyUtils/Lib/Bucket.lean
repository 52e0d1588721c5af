import Mathlib.Algebra.Order.Ring.Defs
import Mathlib.Tactic.Linarith
/-!
# Token buckets

A bucket that holds up to `cap` gets a credit before each request, and grants the request if it holds what a request
costs (`serve`). Any other limiter that keeps no more than it has got, and spends what a request costs on each one that
it grants, is frugal. A frugal limiter may save for later where the bucket spends, but it is never ahead of it: in no
prefix of a run has it granted more (`Frugal.served_le`).
-/

namespace TokenBucket

variable {α : Type*} [CommRing α] [LinearOrder α] [IsStrictOrderedRing α] {cap cost level level' : α}

/-- The answers of the bucket, from the level on and with a credit for each request. -/
def serve (cap cost : α) : α → List α → List Bool
  | _, [] => []
  | level, credit :: credits =>
    if cost ≤ min cap (level + credit) then true :: serve cap cost (min cap (level + credit) - cost) credits
    else false :: serve cap cost (min cap (level + credit)) credits

/-- What is spent on a request with this answer. -/
def spent (cost : α) (granted : Bool) : α := if granted then cost else 0

/-- A limiter that keeps and spends no more than there is, by its credits and answers. -/
inductive Frugal (cap cost : α) : α → List (α × Bool) → Prop
  | nil {level : α} : 0 ≤ level → Frugal cap cost level []
  | cons {level level' credit : α} {granted : Bool} {rs : List (α × Bool)} : 0 ≤ level →
      level' + spent cost granted ≤ min cap (level + credit) → Frugal cap cost level' rs →
        Frugal cap cost level ((credit, granted) :: rs)

omit [IsStrictOrderedRing α] in
theorem Frugal.nonneg {rs : List (α × Bool)} (h : Frugal cap cost level rs) : 0 ≤ level := by
  cases h with
  | nil h => exact h
  | cons h _ _ => exact h

/-- What is ahead stays ahead when both get the same. -/
theorem min_add_le {ahead credit : α} (hahead : 0 ≤ ahead) (hle : level ≤ level' + ahead) :
    min cap (level + credit) ≤ min cap (level' + credit) + ahead := by
  rcases min_choice cap (level' + credit) with hcap | hfill
  · rw [hcap]
    linarith [min_le_left cap (level + credit)]
  · rw [hfill]
    linarith [min_le_right cap (level + credit)]

/-- The bucket has granted `lead` requests more, and holds at most what these cost less. -/
theorem Frugal.lead_le {rs : List (α × Bool)} (h : Frugal cap cost level rs) {lead : ℕ} (hcost : 0 < cost)
    (hle : level ≤ level' + lead * cost) (j : ℕ) :
    ((rs.map Prod.snd).take j).count true ≤ ((serve cap cost level' (rs.map Prod.fst)).take j).count true + lead := by
  induction h generalizing level' lead j with
  | nil _ => simp
  | @cons level next credit granted rs hlevel hkeeps hrest ih =>
    cases j with
    | zero => simp
    | succ j =>
      have hahead : 0 ≤ (lead : α) * cost := mul_nonneg (Nat.cast_nonneg lead) hcost.le
      have hfill : next + spent cost granted ≤ min cap (level' + credit) + lead * cost :=
        hkeeps.trans (min_add_le hahead hle)
      have hnext := hrest.nonneg
      simp only [List.map_cons, serve]
      generalize min cap (level' + credit) = filled at hfill ⊢
      by_cases hserves : cost ≤ filled <;> cases granted
      · -- the bucket grants and gets ahead
        have hless : next ≤ filled - cost + (lead + 1 : ℕ) * cost := by
          simp [spent] at hfill ⊢
          linarith
        have hrec := ih hless j
        simp only [if_pos hserves, List.take_succ_cons, List.count_cons]
        simp
        omega
      · have hless : next ≤ filled - cost + lead * cost := by
          simp [spent] at hfill
          linarith
        have hrec := ih hless j
        simp only [if_pos hserves, List.take_succ_cons, List.count_cons]
        simp
        omega
      · have hless : next ≤ filled + lead * cost := by simpa [spent] using hfill
        have hrec := ih hless j
        simp only [if_neg hserves, List.take_succ_cons, List.count_cons]
        simp
        omega
      · -- the other one grants and catches up; it can only do so if it is behind
        cases lead with
        | zero =>
          simp [spent] at hfill
          linarith
        | succ lead =>
          have hless : next ≤ filled + lead * cost := by
            simp [spent] at hfill
            linarith
          have hrec := ih hless j
          simp only [if_neg hserves, List.take_succ_cons, List.count_cons]
          simp
          omega

/-- **No frugal limiter is ahead of the bucket.** -/
theorem Frugal.served_le {rs : List (α × Bool)} (h : Frugal cap cost level rs) (hcost : 0 < cost) (j : ℕ) :
    ((rs.map Prod.snd).take j).count true ≤ ((serve cap cost level (rs.map Prod.fst)).take j).count true := by
  have hsame : level ≤ level + (0 : ℕ) * cost := by simp
  simpa using h.lead_le hcost hsame j

end TokenBucket
