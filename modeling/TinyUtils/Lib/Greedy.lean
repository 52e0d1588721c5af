import Mathlib.Order.Bounds.Basic
import Mathlib.Order.WellFounded
/-!
# Greedy selection of points that are a distance apart

From the points of the line that meet `P`, at least `d` apart and from `start` on. The greedy selection
takes the first one, and goes on `d` behind it. No other selection has more points (`Takes.optimal`): what is
left behind its first point is left behind that of the greedy one too.
-/

namespace Greedy

variable {P : ℕ → Prop} {d start : ℕ}

/-- The points meet `P`, ascend from `start` on, and are at least `d` apart. -/
def Spaced (P : ℕ → Prop) (d : ℕ) : ℕ → List ℕ → Prop
  | _, [] => True
  | start, i :: l => start ≤ i ∧ P i ∧ Spaced P d (i + d) l

/-- The points that a greedy selection takes. -/
inductive Takes (P : ℕ → Prop) (d : ℕ) : ℕ → List ℕ → Prop
  | none {start : ℕ} : (∀ i, start ≤ i → ¬P i) → Takes P d start []
  | next {start i : ℕ} {l : List ℕ} : IsLeast {i | start ≤ i ∧ P i} i → Takes P d (i + d) l → Takes P d start (i :: l)

theorem Spaced.mono_start {l : List ℕ} {start' : ℕ} (h : Spaced P d start l) (hle : start' ≤ start) :
    Spaced P d start' l := by
  cases l with
  | nil => trivial
  | cons i l => exact ⟨Nat.le_trans hle h.1, h.2⟩

/-- Points that are farther apart are far enough apart. -/
theorem Spaced.mono_dist {l : List ℕ} {d' : ℕ} (h : Spaced P d start l) (hle : d' ≤ d) : Spaced P d' start l := by
  induction l generalizing start with
  | nil => trivial
  | cons i l ih =>
    obtain ⟨hstart, hP, htail⟩ := h
    exact ⟨hstart, hP, (ih htail).mono_start (by omega)⟩

theorem Takes.spaced {l : List ℕ} (h : Takes P d start l) : Spaced P d start l := by
  induction h with
  | none _ => trivial
  | next hleast _ ih => exact ⟨hleast.1.1, hleast.1.2, ih⟩

theorem Takes.eq_nil {l : List ℕ} (h : Takes P d start l) (hnone : ∀ i, start ≤ i → ¬P i) : l = [] := by
  cases h with
  | none _ => rfl
  | next hleast _ => exact absurd hleast.1.2 (hnone _ hleast.1.1)

/-- The first point is what is taken first. -/
theorem Takes.of_isLeast {l : List ℕ} {i : ℕ} (h : Takes P d start l) (hi : IsLeast {i | start ≤ i ∧ P i} i) :
    ∃ l', l = i :: l' ∧ Takes P d (i + d) l' := by
  cases h with
  | none hnone => exact absurd hi.1.2 (hnone i hi.1.1)
  | next hleast htail =>
    obtain rfl := hleast.unique hi
    exact ⟨_, rfl, htail⟩

theorem Takes.of_here {l : List ℕ} (h : Takes P d start l) (hP : P start) :
    ∃ l', l = start :: l' ∧ Takes P d (start + d) l' :=
  h.of_isLeast ⟨⟨Nat.le_refl start, hP⟩, fun _ hi => hi.1⟩

theorem Takes.of_not_here {l : List ℕ} (h : Takes P d start l) (hP : ¬P start) : Takes P d (start + 1) l := by
  have hlater : ∀ i, start ≤ i → P i → start + 1 ≤ i := by
    intro i hi hi'
    apply Nat.lt_of_le_of_ne hi
    rintro rfl
    exact hP hi'
  cases h with
  | none hnone => exact .none fun i hi => hnone i (Nat.le_of_succ_le hi)
  | next hleast htail =>
    refine .next ⟨⟨hlater _ hleast.1.1 hleast.1.2, hleast.1.2⟩, ?_⟩ htail
    exact fun i hi => hleast.2 ⟨Nat.le_of_succ_le hi.1, hi.2⟩

/-- **No selection has more points than the greedy one.** -/
theorem Takes.optimal {l l' : List ℕ} (h : Takes P d start l) (h' : Spaced P d start l') : l'.length ≤ l.length := by
  induction h generalizing l' with
  | none hnone =>
    cases l' with
    | nil => exact Nat.le_refl 0
    | cons i l' => exact absurd h'.2.1 (hnone i h'.1)
  | next hleast _ ih =>
    cases l' with
    | nil => exact Nat.zero_le _
    | cons i' l' =>
      obtain ⟨hstart, hP, htail⟩ := h'
      have hfirst := hleast.2 ⟨hstart, hP⟩
      exact Nat.succ_le_succ (ih (htail.mono_start (Nat.add_le_add_right hfirst d)))

theorem Takes.isGreatest {l : List ℕ} (h : Takes P d start l) :
    IsGreatest {n | ∃ l, Spaced P d start l ∧ l.length = n} l.length := by
  refine ⟨⟨l, h.spaced, rfl⟩, ?_⟩
  rintro _ ⟨l', h', rfl⟩
  exact h.optimal h'

/-- Points below a bound are finitely many. -/
theorem exists_takes (hd : 0 < d) {bound : ℕ} (hP : ∀ i, P i → i < bound) (start : ℕ) : ∃ l, Takes P d start l := by
  have hsteps : ∀ steps start, bound ≤ start + steps → ∃ l, Takes P d start l := by
    intro steps
    induction steps with
    | zero =>
      intro start hle
      refine ⟨[], .none fun i hi hi' => ?_⟩
      have := hP i hi'
      omega
    | succ steps ih =>
      intro start hle
      by_cases hsome : ∃ i, start ≤ i ∧ P i
      · obtain ⟨i, hi, hmin⟩ := wellFounded_lt.has_min {i | start ≤ i ∧ P i} hsome
        have hleast : IsLeast {i | start ≤ i ∧ P i} i := ⟨hi, fun x hx => Nat.le_of_not_lt (hmin x hx)⟩
        have hle' := hi.1
        obtain ⟨l, hl⟩ := ih (i + d) (by omega)
        exact ⟨i :: l, .next hleast hl⟩
      · exact ⟨[], .none fun i hi hi' => hsome ⟨i, hi, hi'⟩⟩
  exact hsteps bound start (Nat.le_add_left _ _)

/-- The greedy selection at distance `d` is as large as one at a shorter distance exactly if some largest selection at
the shorter one is that far apart. -/
theorem Takes.length_eq_iff {l l' : List ℕ} {d' : ℕ} (h : Takes P d start l) (h' : Takes P d' start l')
    (hle : d' ≤ d) : l.length = l'.length ↔
      ∃ k, Spaced P d start k ∧ ∀ k', Spaced P d' start k' → k'.length ≤ k.length := by
  constructor
  · intro heq
    refine ⟨l, h.spaced, fun k' hk' => ?_⟩
    rw [heq]
    exact h'.optimal hk'
  · rintro ⟨k, hk, hmost⟩
    have hlower := hmost l' h'.spaced
    have hupper := h.optimal hk
    have hwithin := h'.optimal (h.spaced.mono_dist hle)
    omega

end Greedy
