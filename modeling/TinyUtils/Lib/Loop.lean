import Mathlib.Logic.Relation
import TinyUtils.Lib.Checked
/-!
# Loops

A loop whose end is not in its text runs on fuel. A program is a function of the fuel to a result, to
nothing when the fuel is used up, or to a fault; it `Returns` a value if any large enough fuel gives that
value, so that this says that it ends. Rules for whole programs:

* `Returns.pure`, `Returns.call`, `Returns.bind`: a program that is put together returns what its parts do
* `returns_loop`: a loop ends if a variant goes down, and what it returns is known if an invariant is kept
* `returns_loopTurns`: the same where each turn is itself such a program
* `stuck_loop`: a loop that always goes on, or faults, returns nothing
* `reaches_safe_iff`: the states that a loop comes to are safe exactly if those of a relation are that steps as the
  loop does where it is safe

Loops that count are functions of the number of turns (`forUp`, `forDown`), and so are loops that look for
the first index, up or down, at which a condition fails (`scanUp`, `scanDown`).
-/

namespace Loops

open Checked

variable {ε α β σ ρ : Type}

/-- A program on fuel. -/
abbrev Fuelled (ε : Type) := ReaderT Nat (OptionT (Except ε))

/-- A program without a loop. -/
def call (x : Except ε α) : Fuelled ε α := fun _ => OptionT.mk (x.map some)

/-- A turn goes on with a state or is the last one. -/
def run (body : σ → Except ε (σ ⊕ ρ)) : Nat → σ → Except ε (Option ρ)
  | 0, _ => .ok none
  | fuel + 1, s =>
    match body s with
    | .ok (.inl s) => run body fuel s
    | .ok (.inr r) => .ok (some r)
    | .error e => .error e

def loop (body : σ → Except ε (σ ⊕ ρ)) (s : σ) : Fuelled ε ρ := fun fuel => OptionT.mk (run body fuel s)

/-- Any large enough fuel gives the value. -/
def Returns (x : Fuelled ε α) (a : α) : Prop := ∃ N, ∀ n, N ≤ n → x n = OptionT.mk (.ok (some a))

/-- No fuel gives a value. -/
def Stuck (x : Fuelled ε α) : Prop := ∀ n a, x n ≠ OptionT.mk (.ok (some a))

theorem bind_eq (x : Fuelled ε α) (f : α → Fuelled ε β) (n : Nat) :
    (x >>= f) n = match (x n).run with
      | .ok (some a) => f a n
      | .ok none => OptionT.mk (.ok none)
      | .error e => OptionT.mk (.error e) := by
  change (x n >>= fun a => f a n) = _
  generalize x n = y
  change Except ε (Option α) at y
  cases y with
  | error e => rfl
  | ok r => cases r <;> rfl

theorem Returns.pure (a : α) : Returns (Pure.pure a : Fuelled ε α) a := ⟨0, fun _ _ => rfl⟩

theorem Returns.call {x : Except ε α} {a : α} (h : x = .ok a) : Returns (call x) a := by
  subst h
  exact ⟨0, fun _ _ => rfl⟩

theorem Returns.bind {x : Fuelled ε α} {f : α → Fuelled ε β} {a : α} {b : β} (hx : Returns x a)
    (hf : Returns (f a) b) : Returns (x >>= f) b := by
  obtain ⟨N, hN⟩ := hx
  obtain ⟨K, hK⟩ := hf
  refine ⟨max N K, fun n hn => ?_⟩
  rw [bind_eq, hN n (by omega)]
  exact hK n (by omega)

/-- What a program returns is one value. -/
theorem Returns.unique {x : Fuelled ε α} {a b : α} (ha : Returns x a) (hb : Returns x b) : a = b := by
  obtain ⟨N, hN⟩ := ha
  obtain ⟨K, hK⟩ := hb
  have heq := (hN (max N K) (by omega)).symm.trans (hK (max N K) (by omega))
  cases heq
  rfl

theorem Stuck.not_returns {x : Fuelled ε α} (hx : Stuck x) (a : α) : ¬Returns x a := by
  rintro ⟨N, hN⟩
  exact hx N a (hN N (Nat.le_refl N))

theorem Stuck.call_bind {x : Except ε α} {f : α → Fuelled ε β} {a : α} (hx : x = .ok a) (hf : Stuck (f a)) :
    Stuck (call x >>= f) := by
  subst hx
  intro n b h
  rw [bind_eq] at h
  exact hf n b h

theorem Stuck.call_error {x : Except ε α} {f : α → Fuelled ε β} {e : ε} (hx : x = .error e) :
    Stuck (call x >>= f) := by
  subst hx
  intro n b h
  rw [bind_eq] at h
  cases h

/-- **The rule for a loop that ends**: the invariant `I` ties the state to a value that the program need not have. A
turn keeps it and the variant of the value goes down, or the turn is the last one and its result meets `Q`. -/
theorem returns_loop {γ : Type} {body : σ → Except ε (σ ⊕ ρ)} {I : σ → γ → Prop} {Q : ρ → Prop} (variant : γ → Nat)
    (hbody : ∀ s g, I s g → (∃ s' g', body s = .ok (.inl s') ∧ I s' g' ∧ variant g' < variant g) ∨
      ∃ r, body s = .ok (.inr r) ∧ Q r) :
    ∀ {s : σ} {g : γ}, I s g → ∃ r, Returns (loop body s) r ∧ Q r := by
  have hrun : ∀ bound s g, variant g < bound → I s g →
      ∃ r, Q r ∧ ∀ fuel, bound ≤ fuel → run body fuel s = .ok (some r) := by
    intro bound
    induction bound with
    | zero =>
      intro s g hlt
      omega
    | succ bound ih =>
      intro s g hlt hs
      rcases hbody s g hs with ⟨s', g', hstep, hs', hdown⟩ | ⟨r, hlast, hr⟩
      · obtain ⟨r, hr, hfuel⟩ := ih s' g' (by omega) hs'
        refine ⟨r, hr, fun fuel hle => ?_⟩
        obtain ⟨fuel, rfl⟩ : ∃ k, fuel = k + 1 := ⟨fuel - 1, by omega⟩
        simp only [run, hstep]
        exact hfuel fuel (by omega)
      · refine ⟨r, hr, fun fuel hle => ?_⟩
        obtain ⟨fuel, rfl⟩ : ∃ k, fuel = k + 1 := ⟨fuel - 1, by omega⟩
        simp only [run, hlast]
  intro s g hs
  obtain ⟨r, hr, hfuel⟩ := hrun (variant g + 1) s g (Nat.lt_succ_self _) hs
  exact ⟨r, ⟨variant g + 1, fun n hn => congrArg OptionT.mk (hfuel n hn)⟩, hr⟩

/-- **The rule for a loop that does not end**: every turn goes on within the invariant, or faults. -/
theorem stuck_loop {body : σ → Except ε (σ ⊕ ρ)} {I : σ → Prop}
    (hbody : ∀ s, I s → (∃ s', body s = .ok (.inl s') ∧ I s') ∨ ∃ e, body s = .error e) {s : σ} (hs : I s) :
    Stuck (loop body s) := by
  intro n
  induction n generalizing s with
  | zero =>
    intro a h
    cases h
  | succ n ih =>
    intro a h
    rcases hbody s hs with ⟨s', hstep, hs'⟩ | ⟨e, hfault⟩
    · have hrun : run body (n + 1) s = run body n s' := by simp only [run, hstep]
      exact ih hs' a (by rw [loop, ← hrun]; exact h)
    · have hrun : run body (n + 1) s = .error e := by simp only [run, hfault]
      rw [loop, hrun] at h
      cases h

/-! ## The states of a loop -/

/-- The loop comes from the one state to the other. -/
def Reaches (body : σ → Except ε (σ ⊕ ρ)) : σ → σ → Prop := Relation.ReflTransGen fun s s' => body s = .ok (.inl s')

/-- **The rule for states that are safe**, such as those whose turn stays within an array: where it is safe, the loop
goes on as the relation `Step` does, which keeps the invariant `I`. -/
theorem reaches_safe_iff {γ : Type} {body : σ → Except ε (σ ⊕ ρ)} {Step : γ → γ → Prop} (embed : γ → σ) (I : γ → Prop)
    (Safe : σ → Prop) (hI : ∀ g g', I g → Step g g' → I g')
    (hbody : ∀ g, I g → Safe (embed g) → ∀ s', body (embed g) = .ok (.inl s') ↔ ∃ g', s' = embed g' ∧ Step g g') {g : γ}
    (hg : I g) :
    (∀ s, Reaches body (embed g) s → Safe s) ↔ ∀ g', Relation.ReflTransGen Step g g' → I g' → Safe (embed g') := by
  constructor
  · intro hsafe g' hsteps hIg'
    have hreach : I g' ∧ Reaches body (embed g) (embed g') := by
      clear hIg'
      induction hsteps with
      | refl => exact ⟨hg, .refl⟩
      | tail _ hstep ih =>
        obtain ⟨hIg, hreach⟩ := ih
        refine ⟨hI _ _ hIg hstep, hreach.tail ?_⟩
        exact (hbody _ hIg (hsafe _ hreach) _).2 ⟨_, rfl, hstep⟩
    exact hsafe _ hreach.2
  · intro hsafe s hs
    have hsome : ∃ g', s = embed g' ∧ I g' ∧ Relation.ReflTransGen Step g g' := by
      induction hs with
      | refl => exact ⟨g, rfl, hg, .refl⟩
      | tail _ hturn ih =>
        obtain ⟨g', rfl, hIg, hsteps⟩ := ih
        obtain ⟨g'', rfl, hstep⟩ := (hbody g' hIg (hsafe g' hsteps hIg) _).1 hturn
        exact ⟨g'', rfl, hI _ _ hIg hstep, hsteps.tail hstep⟩
    obtain ⟨g', rfl, hIg, hsteps⟩ := hsome
    exact hsafe g' hsteps hIg

/-! ## A loop over programs on fuel -/

/-- Turns that are programs on fuel, with what fuel there is for each. -/
def runTurns (body : σ → Fuelled ε (σ ⊕ ρ)) (fuel : Nat) : Nat → σ → OptionT (Except ε) ρ
  | 0, _ => OptionT.mk (.ok none)
  | turns + 1, s =>
    match (body s fuel).run with
    | .ok (some (.inl s)) => runTurns body fuel turns s
    | .ok (some (.inr r)) => OptionT.mk (.ok (some r))
    | .ok none => OptionT.mk (.ok none)
    | .error e => OptionT.mk (.error e)

def loopTurns (body : σ → Fuelled ε (σ ⊕ ρ)) (s : σ) : Fuelled ε ρ := fun fuel => runTurns body fuel fuel s

/-- The rule for a loop that ends, whose turns are programs that end. -/
theorem returns_loopTurns {γ : Type} {body : σ → Fuelled ε (σ ⊕ ρ)} {I : σ → γ → Prop} {Q : ρ → Prop}
    (variant : γ → Nat)
    (hbody : ∀ s g, I s g → (∃ s' g', Returns (body s) (.inl s') ∧ I s' g' ∧ variant g' < variant g) ∨
      ∃ r, Returns (body s) (.inr r) ∧ Q r) {s : σ} {g : γ} (hs : I s g) : ∃ r, Returns (loopTurns body s) r ∧ Q r := by
  have hrun : ∀ bound s g, variant g < bound → I s g →
      ∃ r N, Q r ∧ ∀ fuel turns, N ≤ fuel → bound ≤ turns → runTurns body fuel turns s = OptionT.mk (.ok (some r)) := by
    intro bound
    induction bound with
    | zero =>
      intro s g hlt
      omega
    | succ bound ih =>
      intro s g hlt hs
      rcases hbody s g hs with ⟨s', g', ⟨N, hN⟩, hs', hdown⟩ | ⟨r, ⟨N, hN⟩, hr⟩
      · obtain ⟨r, K, hr, hrest⟩ := ih s' g' (by omega) hs'
        refine ⟨r, max N K, hr, fun fuel turns hfuel hturns => ?_⟩
        obtain ⟨turns, rfl⟩ : ∃ k, turns = k + 1 := ⟨turns - 1, by omega⟩
        rw [runTurns, hN fuel (by omega)]
        exact hrest fuel turns (by omega) (by omega)
      · refine ⟨r, N, hr, fun fuel turns hfuel hturns => ?_⟩
        obtain ⟨turns, rfl⟩ : ∃ k, turns = k + 1 := ⟨turns - 1, by omega⟩
        rw [runTurns, hN fuel hfuel]
        rfl
  obtain ⟨r, N, hr, hfuel⟩ := hrun (variant g + 1) s g (Nat.lt_succ_self _) hs
  exact ⟨r, ⟨max N (variant g + 1), fun n hn => hfuel n n (by omega) (by omega)⟩, hr⟩

/-! ## Loops that count -/

/-- `for(; i < hi; ++i)`, with `turns` to go. -/
def forUp (body : Nat → σ → Except ε σ) : Nat → Nat → σ → Except ε σ
  | 0, _, s => .ok s
  | turns + 1, i, s => do
    let s ← body i s
    forUp body turns (i + 1) s

/-- `for(i = n - 1; i >= 0; --i)` -/
def forDown (body : Nat → σ → Except ε σ) : Nat → σ → Except ε σ
  | 0, s => .ok s
  | i + 1, s => do
    let s ← body i s
    forDown body i s

/-- `while(i < hi && cond(i)) ++i;`, with `turns` to go. -/
def scanUp (cond : Nat → Except ε Bool) : Nat → Nat → Except ε Nat
  | 0, i => .ok i
  | turns + 1, i => do
    let b ← cond i
    if b then scanUp cond turns (i + 1) else .ok i

/-- `while(i >= 0 && cond(i)) --i;` from `n - 1` on; the result is one more than `i`. -/
def scanDown (cond : Nat → Except ε Bool) : Nat → Except ε Nat
  | 0 => .ok 0
  | i + 1 => do
    let b ← cond i
    if b then scanDown cond i else .ok (i + 1)

section
variable {body : Nat → σ → Except ε σ} {cond : Nat → Except ε Bool} {I : Nat → σ → Prop} {P : Nat → Prop}

theorem forUp_spec {hi : Nat} (hbody : ∀ i s, i < hi → I i s → ∃ s', body i s = .ok s' ∧ I (i + 1) s') :
    ∀ {turns i : Nat} {s : σ}, i + turns = hi → I i s → ∃ s', forUp body turns i s = .ok s' ∧ I hi s' := by
  intro turns
  induction turns with
  | zero =>
    rintro i s rfl hs
    exact ⟨s, rfl, hs⟩
  | succ turns ih =>
    intro i s hturns hs
    obtain ⟨s', hstep, hs'⟩ := hbody i s (by omega) hs
    obtain ⟨s'', hrest, hs''⟩ := ih (by omega) hs'
    refine ⟨s'', ?_, hs''⟩
    rw [forUp, hstep]
    exact hrest

/-- Loops with the same turns. -/
theorem forUp_congr {body' : Nat → σ → Except ε σ} {hi : Nat} (hbody : ∀ i s, i < hi → body i s = body' i s) :
    ∀ {turns i : Nat} {s : σ}, i + turns = hi → forUp body turns i s = forUp body' turns i s := by
  intro turns
  induction turns with
  | zero =>
    intro i s _
    rfl
  | succ turns ih =>
    intro i s hturns
    have hrest : forUp body turns (i + 1) = forUp body' turns (i + 1) := by
      ext s
      exact ih (by omega)
    rw [forUp, forUp, hbody i s (by omega), hrest]

/-- A turn that returns nothing. -/
theorem forUp_ne_ok {j : Nat} (hbody : ∀ s s', body j s ≠ .ok s') :
    ∀ {turns i : Nat} {s s' : σ}, i ≤ j → j < i + turns → forUp body turns i s ≠ .ok s' := by
  intro turns
  induction turns with
  | zero =>
    intro i s s' hij hj
    omega
  | succ turns ih =>
    intro i s s' hij hj h
    obtain ⟨s'', hstep, hrest⟩ := bind_eq_ok h
    by_cases hlast : i = j
    · subst hlast
      exact hbody s s'' hstep
    · exact ih (by omega) (by omega) hrest

theorem forDown_spec {n : Nat} (hbody : ∀ i s, i < n → I (i + 1) s → ∃ s', body i s = .ok s' ∧ I i s') {s : σ}
    (hs : I n s) : ∃ s', forDown body n s = .ok s' ∧ I 0 s' := by
  induction n generalizing s with
  | zero => exact ⟨s, rfl, hs⟩
  | succ n ih =>
    obtain ⟨s', hstep, hs'⟩ := hbody n s (Nat.lt_succ_self n) hs
    obtain ⟨s'', hrest, hs''⟩ := ih (fun i s hi => hbody i s (Nat.lt_succ_of_lt hi)) hs'
    refine ⟨s'', ?_, hs''⟩
    rw [forDown, hstep]
    exact hrest

/-- The scan stops at the first index from `i` on at which the condition fails. -/
theorem scanUp_spec {hi : Nat} (hcond : ∀ i, i < hi → ∃ b, cond i = .ok b ∧ (b = true ↔ P i)) :
    ∀ {turns i : Nat}, i + turns = hi → ∃ r, scanUp cond turns i = .ok r ∧ r ≤ hi ∧
      (∀ k, i ≤ k → k < r → P k) ∧ (r < hi → ¬P r) := by
  intro turns
  induction turns with
  | zero =>
    intro i hturns
    exact ⟨i, rfl, by omega, fun k h1 h2 => by omega, fun h => by omega⟩
  | succ turns ih =>
    intro i hturns
    obtain ⟨b, hb, hP⟩ := hcond i (by omega)
    cases b with
    | false =>
      refine ⟨i, ?_, by omega, fun k h1 h2 => by omega, fun _ h => Bool.noConfusion (hP.2 h)⟩
      rw [scanUp, hb]
      rfl
    | true =>
      obtain ⟨r, hr, hle, hall, hstop⟩ := ih (i := i + 1) (by omega)
      refine ⟨r, ?_, hle, fun k h1 h2 => ?_, hstop⟩
      · rw [scanUp, hb]
        exact hr
      · by_cases hk : k = i
        · rw [hk]
          exact hP.1 rfl
        · exact hall k (by omega) h2

theorem le_scanUp {turns i r : Nat} (h : scanUp cond turns i = .ok r) : i ≤ r := by
  induction turns generalizing i with
  | zero =>
    cases h
    exact Nat.le_refl _
  | succ turns ih =>
    obtain ⟨b, _, hrest⟩ := bind_eq_ok h
    cases b with
    | false =>
      cases hrest
      exact Nat.le_refl _
    | true => exact Nat.le_of_succ_le (ih hrest)

/-- The scan stops behind the last index below `n` at which the condition fails. -/
theorem scanDown_spec {n : Nat} (hcond : ∀ i, i < n → ∃ b, cond i = .ok b ∧ (b = true ↔ P i)) :
    ∃ r, scanDown cond n = .ok r ∧ r ≤ n ∧ (∀ k, r ≤ k → k < n → P k) ∧ (0 < r → ¬P (r - 1)) := by
  induction n with
  | zero => exact ⟨0, rfl, Nat.le_refl 0, fun k h1 h2 => by omega, fun h => by omega⟩
  | succ n ih =>
    obtain ⟨b, hb, hP⟩ := hcond n (Nat.lt_succ_self n)
    cases b with
    | false =>
      refine ⟨n + 1, ?_, Nat.le_refl _, fun k h1 h2 => by omega, fun _ h => Bool.noConfusion (hP.2 h)⟩
      rw [scanDown, hb]
      rfl
    | true =>
      obtain ⟨r, hr, hle, hall, hstop⟩ := ih fun i hi => hcond i (Nat.lt_succ_of_lt hi)
      refine ⟨r, ?_, by omega, fun k h1 h2 => ?_, hstop⟩
      · rw [scanDown, hb]
        exact hr
      · by_cases hk : k = n
        · rw [hk]
          exact hP.1 rfl
        · exact hall k h1 (by omega)

end

end Loops
