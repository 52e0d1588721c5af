import Mathlib.Algebra.Ring.Nat
/-!
# Runs of a step relation

A step relation `step : σ → α → σ → Prop` moves a state along a labelled step. A run is the list of
the steps taken and of the states reached, so a property can be asked of every state of a run and a
condition of every step of it. Two ways to reason about runs:

* `Reach.inv` and `run_inv`: what holds at the start and is kept by every step (of a run whose steps
  all meet the condition `P`) holds in every state reached;
* `isRun_iff`: what each step of a run does, when one step does it exactly under `P`;
* `run_exact`: when `P` is also necessary for one step, the runs whose states are all good are
  exactly the runs whose steps all meet `P`.
-/

namespace Runs

variable {σ α : Type}

/-- `s` is reached from `s₀` by finitely many steps. -/
inductive Reach (step : σ → α → σ → Prop) (s₀ : σ) : σ → Prop
  | refl : Reach step s₀ s₀
  | tail {s s' : σ} {a : α} : Reach step s₀ s → step s a s' → Reach step s₀ s'

/-- The list is a run of `step` from the state: each label with the state its step leads to. -/
def IsRun (step : σ → α → σ → Prop) : σ → List (α × σ) → Prop
  | _, [] => True
  | s, (a, s') :: tr => step s a s' ∧ IsRun step s' tr

/-- Every step of the run is taken from a state where its label meets `P`. -/
def StepsMeet (P : σ → α → Prop) : σ → List (α × σ) → Prop
  | _, [] => True
  | s, (a, s') :: tr => P s a ∧ StepsMeet P s' tr

/-- Every state of the run, the first one included, is in `Q`. -/
def StatesMeet (Q : σ → Prop) : σ → List (α × σ) → Prop
  | s, [] => Q s
  | s, (_, s') :: tr => Q s ∧ StatesMeet Q s' tr

/-- The last state of the run. -/
def last : σ → List (α × σ) → σ
  | s, [] => s
  | _, (_, s') :: tr => last s' tr

instance StepsMeet.decidable (P : σ → α → Prop) [∀ s a, Decidable (P s a)] :
    ∀ (s : σ) (tr : List (α × σ)), Decidable (StepsMeet P s tr)
  | _, [] => .isTrue trivial
  | s, (a, s') :: tr => @instDecidableAnd _ _ (inferInstanceAs (Decidable (P s a))) (StepsMeet.decidable P s' tr)

section
variable {step : σ → α → σ → Prop} {P : σ → α → Prop} {Q I : σ → Prop}

theorem IsRun.reach {s₀ s : σ} {tr : List (α × σ)} (hr : IsRun step s tr) (h : Reach step s₀ s) :
    Reach step s₀ (last s tr) := by
  induction tr generalizing s with
  | nil => exact h
  | cons x tr ih => exact ih hr.2 (h.tail hr.1)

theorem StatesMeet.head : ∀ {s : σ} {tr : List (α × σ)}, StatesMeet Q s tr → Q s
  | _, [], h => h
  | _, _ :: _, h => h.1

theorem StatesMeet.last {s : σ} {tr : List (α × σ)} (h : StatesMeet Q s tr) : Q (last s tr) := by
  induction tr generalizing s with
  | nil => exact h
  | cons x tr ih => exact ih h.2

theorem StepsMeet.and {P' : σ → α → Prop} {s : σ} {tr : List (α × σ)} (h : StepsMeet P s tr) (h' : StepsMeet P' s tr) :
    StepsMeet (fun s a => P s a ∧ P' s a) s tr := by
  induction tr generalizing s with
  | nil => trivial
  | cons x tr ih => exact ⟨⟨h.1, h'.1⟩, ih h.2 h'.2⟩

theorem StepsMeet.imp {P' : σ → α → Prop} (himp : ∀ s a, P s a → P' s a) {s : σ} {tr : List (α × σ)}
    (h : StepsMeet P s tr) : StepsMeet P' s tr := by
  induction tr generalizing s with
  | nil => trivial
  | cons x tr ih => exact ⟨himp s x.1 h.1, ih h.2⟩

/-- **The invariant rule.** -/
theorem Reach.inv {s₀ s : σ} (h : Reach step s₀ s) (h0 : I s₀)
    (hstep : ∀ s a s', I s → step s a s' → I s') : I s := by
  induction h with
  | refl => exact h0
  | tail _ hs ih => exact hstep _ _ _ ih hs

/-- **The invariant rule for runs whose steps all meet `P`**: the invariant `I` is kept by such a
    step and implies `Q`. -/
theorem run_inv (hQ : ∀ s, I s → Q s) (hstep : ∀ s a s', I s → step s a s' → P s a → I s') :
    ∀ {s : σ} {tr : List (α × σ)}, I s → IsRun step s tr → StepsMeet P s tr → StatesMeet Q s tr
  | s, [], h0, _, _ => hQ s h0
  | s, (a, s') :: _, h0, hr, hP =>
    ⟨hQ s h0, run_inv hQ hstep (hstep s a s' h0 hr.1 hP.1) hr.2 hP.2⟩

/-- Two conditions that are the same wherever the invariant `I` holds. -/
theorem stepsMeet_congr {P' : σ → α → Prop} (hstep : ∀ s a s', I s → step s a s' → I s')
    (hiff : ∀ s a, I s → (P s a ↔ P' s a)) :
    ∀ {s : σ} {tr : List (α × σ)}, I s → IsRun step s tr → (StepsMeet P s tr ↔ StepsMeet P' s tr)
  | _, [], _, _ => Iff.rfl
  | s, (a, s') :: _, h0, hr =>
    and_congr (hiff s a h0) (stepsMeet_congr hstep hiff (hstep s a s' h0 hr.1) hr.2)

theorem isRun_and_iff {R : σ → α → σ → Prop} {s : σ} {tr : List (α × σ)} :
    IsRun (fun s a s' => P s a ∧ R s a s') s tr ↔ StepsMeet P s tr ∧ IsRun R s tr := by
  induction tr generalizing s with
  | nil => exact iff_of_true trivial ⟨trivial, trivial⟩
  | cons x tr ih =>
    constructor
    · rintro ⟨⟨hP, hR⟩, htr⟩
      obtain ⟨hPs, hRs⟩ := ih.1 htr
      exact ⟨⟨hP, hPs⟩, hR, hRs⟩
    · rintro ⟨⟨hP, hPs⟩, hR, hRs⟩
      exact ⟨⟨hP, hR⟩, ih.2 ⟨hPs, hRs⟩⟩

/-- **The step rule**: where the invariant `I` holds, a step is in `R` exactly under `P`; so are the steps of a run. -/
theorem isRun_iff {R : σ → α → σ → Prop} (hstep : ∀ s a s', I s → step s a s' → P s a → I s')
    (hiff : ∀ s a s', I s → step s a s' → (R s a s' ↔ P s a)) :
    ∀ {s : σ} {tr : List (α × σ)}, I s → IsRun step s tr → (IsRun R s tr ↔ StepsMeet P s tr)
  | _, [], _, _ => Iff.rfl
  | s, (a, s') :: tr, h0, hr => by
    have hhead := hiff s a s' h0 hr.1
    constructor
    · rintro ⟨hR, htr⟩
      have hP := hhead.1 hR
      exact ⟨hP, (isRun_iff hstep hiff (hstep s a s' h0 hr.1 hP) hr.2).1 htr⟩
    · rintro ⟨hP, htr⟩
      exact ⟨hhead.2 hP, (isRun_iff hstep hiff (hstep s a s' h0 hr.1 hP) hr.2).2 htr⟩

/-- **The exact condition rule**: if a step outside `P` leads straight out of `Q`, the runs that stay
    in `Q` are exactly the runs whose steps all meet `P`. -/
theorem run_exact (hQ : ∀ s, I s → Q s) (hstep : ∀ s a s', I s → step s a s' → P s a → I s')
    (hbad : ∀ s a s', I s → step s a s' → Q s' → P s a) :
    ∀ {s : σ} {tr : List (α × σ)}, I s → IsRun step s tr → (StatesMeet Q s tr ↔ StepsMeet P s tr)
  | s, [], h0, _ => ⟨fun _ => trivial, fun _ => hQ s h0⟩
  | s, (a, s') :: tr, h0, hr => by
    constructor
    · rintro ⟨_, htr⟩
      have hP := hbad s a s' h0 hr.1 htr.head
      exact ⟨hP, (run_exact hQ hstep hbad (hstep s a s' h0 hr.1 hP) hr.2).1 htr⟩
    · rintro ⟨hP, htr⟩
      exact ⟨hQ s h0, (run_exact hQ hstep hbad (hstep s a s' h0 hr.1 hP) hr.2).2 htr⟩

end

/-- Most runs that are written down are of two parties, `0` and `1` of `Fin 2`. -/
instance (priority := 2000) neZeroTwo : NeZero (2 : Nat) := ⟨by decide⟩

end Runs
