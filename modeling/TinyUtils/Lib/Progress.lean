import TinyUtils.Lib.Run
/-!
# Progress of one party

A rank on the states that each step of one party lowers and no other step raises bounds how many steps the party takes
in any run, whatever the other parties do in between (`count_own_le`). With a step that the party can always take where
the rank is not zero this is wait-freedom.
-/

namespace Runs

variable {σ α : Type} {step : σ → α → σ → Prop} {P : σ → α → Prop}

/-- The number of steps of the run that are of the party. -/
def countOwn (own : α → Bool) (tr : List (α × σ)) : Nat := tr.countP fun x => own x.1

/-- **The rank rule.** -/
theorem count_own_le {own : α → Bool} {r : σ → Nat}
    (hown : ∀ s a s', step s a s' → P s a → own a = true → r s' < r s)
    (hother : ∀ s a s', step s a s' → P s a → own a = false → r s' ≤ r s) {s : σ} {tr : List (α × σ)}
    (hr : IsRun step s tr) (hP : StepsMeet P s tr) : countOwn own tr + r (last s tr) ≤ r s := by
  induction tr generalizing s with
  | nil => exact Nat.le_of_eq (Nat.zero_add _)
  | cons x tr ih =>
    obtain ⟨a, s'⟩ := x
    have hrest := ih hr.2 hP.2
    simp only [countOwn, List.countP_cons] at hrest ⊢
    cases ha : own a with
    | true =>
      have := hown s a s' hr.1 hP.1 ha
      simp only [last, if_true]
      omega
    | false =>
      have := hother s a s' hr.1 hP.1 ha
      simp only [last, Bool.false_eq_true, if_false]
      omega

end Runs
