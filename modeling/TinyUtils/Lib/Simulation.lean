import TinyUtils.Lib.Run
/-!
# One step relation seen through another

`abs` maps the states of `step` to those of `spec`, and `lab` its steps to labels of `spec`. If each step from a state
with the invariant `I` under the condition `P` is one of `spec` under these maps, the image of a run is a run of `spec`
(`isRun_image`). A step that `spec` does not see is one that its relation lets pass, as a label of its own; for the states
that are reached it may also leave the image where it is (`reach_image`).

`image` is the run of `spec` that belongs to a run of `step`.
-/

namespace Runs

variable {σ τ α β : Type}

/-- The run as `spec` sees it. -/
def image (abs : σ → τ) (lab : σ → α → σ → β) : σ → List (α × σ) → List (β × τ)
  | _, [] => []
  | s, (a, s') :: tr => (lab s a s', abs s') :: image abs lab s' tr

section
variable {step : σ → α → σ → Prop} {spec : τ → β → τ → Prop} {abs : σ → τ} {lab : σ → α → σ → β} {I : σ → Prop}
  {P : σ → α → Prop}

theorem last_image (s : σ) (tr : List (α × σ)) : last (abs s) (image abs lab s tr) = abs (last s tr) := by
  induction tr generalizing s with
  | nil => rfl
  | cons x tr ih => exact ih x.2

/-- **The simulation rule for runs under a condition.** -/
theorem isRun_image_of (hI : ∀ s a s', I s → step s a s' → P s a → I s')
    (hspec : ∀ s a s', I s → step s a s' → P s a → spec (abs s) (lab s a s') (abs s')) {s : σ} {tr : List (α × σ)}
    (h0 : I s) (hr : IsRun step s tr) (hP : StepsMeet P s tr) : IsRun spec (abs s) (image abs lab s tr) := by
  induction tr generalizing s with
  | nil => trivial
  | cons x tr ih =>
    obtain ⟨a, s'⟩ := x
    exact ⟨hspec s a s' h0 hr.1 hP.1, ih (hI s a s' h0 hr.1 hP.1) hr.2 hP.2⟩

/-- **The simulation rule.** -/
theorem isRun_image (hI : ∀ s a s', I s → step s a s' → I s')
    (hspec : ∀ s a s', I s → step s a s' → spec (abs s) (lab s a s') (abs s')) {s : σ} {tr : List (α × σ)}
    (h0 : I s) (hr : IsRun step s tr) : IsRun spec (abs s) (image abs lab s tr) := by
  have htrue : StepsMeet (fun _ _ => True) s tr := by
    clear h0 hr
    induction tr generalizing s with
    | nil => trivial
    | cons x tr ih => exact ⟨trivial, ih⟩
  exact isRun_image_of (fun s a s' hi hs _ => hI s a s' hi hs) (fun s a s' hi hs _ => hspec s a s' hi hs) h0 hr htrue

/-- The simulation rule for the states that are reached, where `spec` need not see each step. -/
theorem reach_image (hspec : ∀ s a s', step s a s' → abs s' = abs s ∨ ∃ b, spec (abs s) b (abs s')) {s₀ s : σ}
    (hr : Reach step s₀ s) : Reach spec (abs s₀) (abs s) := by
  induction hr with
  | refl => exact .refl
  | tail _ hs ih =>
    rcases hspec _ _ _ hs with hsame | ⟨b, hb⟩
    · rw [hsame]
      exact ih
    · exact ih.tail hb

end

/-- A run whose steps are those of a function ends where the function leads. -/
theorem last_eq_foldl {f : τ → β → τ} {s : τ} {tr : List (β × τ)} (hr : IsRun (fun s b s' => s' = f s b) s tr) :
    last s tr = (tr.map Prod.fst).foldl f s := by
  induction tr generalizing s with
  | nil => rfl
  | cons x tr ih =>
    obtain ⟨b, s'⟩ := x
    obtain ⟨rfl, hr⟩ := hr
    exact ih hr

theorem labels_image {abs : σ → τ} {g : α → β} {s : σ} {tr : List (α × σ)} :
    (image abs (fun _ a _ => g a) s tr).map Prod.fst = (tr.map Prod.fst).map g := by
  induction tr generalizing s with
  | nil => rfl
  | cons x tr ih => simp only [image, List.map_cons, ih]

end Runs
