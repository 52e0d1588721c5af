/-!
# Computations that give up without a trace

A computation over a state that returns `none` to say that it failed. It is `Atomic` if it then leaves the
state as it was. The rules follow the shape of a program that checks first and writes last: what comes
before the last check only `Reads`, and what comes behind it `Commits`, which is never to return `none`.
-/

namespace Atomicity

variable {σ ε α β : Type}

/-- The computation changes nothing. -/
def Reads (x : StateT σ (Except ε) α) : Prop := ∀ s a s', x s = .ok (a, s') → s' = s

/-- The computation does not fail. -/
def Commits (x : StateT σ (Except ε) (Option α)) : Prop := ∀ s s', x s ≠ .ok (none, s')

/-- If the computation fails, it has changed nothing. -/
def Atomic (x : StateT σ (Except ε) (Option α)) : Prop := ∀ s s', x s = .ok (none, s') → s' = s

theorem bind_eq (x : StateT σ (Except ε) α) (f : α → StateT σ (Except ε) β) (s : σ) :
    (x >>= f) s = match x s with
      | .ok (a, s') => f a s'
      | .error e => .error e := by
  change (x s >>= fun p => f p.1 p.2) = _
  cases x s <;> rfl

/-- A run of two computations in turn. -/
theorem bind_inv {x : StateT σ (Except ε) α} {f : α → StateT σ (Except ε) β} {s s' : σ} {b : β}
    (h : (x >>= f) s = .ok (b, s')) : ∃ a s₁, x s = .ok (a, s₁) ∧ f a s₁ = .ok (b, s') := by
  rw [bind_eq] at h
  cases hx : x s with
  | error e =>
    rw [hx] at h
    cases h
  | ok r =>
    rw [hx] at h
    exact ⟨r.1, r.2, rfl, h⟩

theorem Reads.pure (a : α) : Reads (Pure.pure a : StateT σ (Except ε) α) := by
  intro s b s' h
  cases h
  rfl

theorem Reads.atomic {x : StateT σ (Except ε) (Option α)} (hx : Reads x) : Atomic x := fun s s' h => hx s none s' h

theorem Commits.atomic {x : StateT σ (Except ε) (Option α)} (hx : Commits x) : Atomic x :=
  fun s s' h => absurd h (hx s s')

theorem Commits.pure (a : α) : Commits (Pure.pure (some a) : StateT σ (Except ε) (Option α)) := by
  intro s s' h
  cases h

/-- Whatever comes first, the end commits. -/
theorem Commits.bind {x : StateT σ (Except ε) β} {f : β → StateT σ (Except ε) (Option α)} (hf : ∀ b, Commits (f b)) :
    Commits (x >>= f) := by
  intro s s' h
  obtain ⟨b, s₁, _, hb⟩ := bind_inv h
  exact hf b s₁ s' hb

theorem Atomic.bind {x : StateT σ (Except ε) β} {f : β → StateT σ (Except ε) (Option α)} (hx : Reads x)
    (hf : ∀ b, Atomic (f b)) : Atomic (x >>= f) := by
  intro s s' h
  obtain ⟨b, s₁, hb, h'⟩ := bind_inv h
  obtain rfl := hx s b s₁ hb
  exact hf b s₁ s' h'

/-- The last check: behind a failure nothing is written, and behind a success nothing fails. -/
theorem Atomic.bind_commits {x : StateT σ (Except ε) (Option β)} {f : Option β → StateT σ (Except ε) (Option α)}
    (hx : Atomic x) (hnone : Atomic (f none)) (hsome : ∀ b, Commits (f (some b))) : Atomic (x >>= f) := by
  intro s s' h
  obtain ⟨b, s₁, hb, h'⟩ := bind_inv h
  cases b with
  | none =>
    obtain rfl := hx s s₁ hb
    exact hnone s₁ s' h'
  | some b => exact absurd h' (hsome b s₁ s')

theorem Atomic.ite {x y : StateT σ (Except ε) (Option α)} {p : Prop} [Decidable p] (hx : Atomic x) (hy : Atomic y) :
    Atomic (if p then x else y) := by
  split
  · exact hx
  · exact hy

end Atomicity
