import TinyUtils.TokenFrequency.Model
/-!
# The bounds of the bucket

The tokens are compared with the capacity after they have wrapped around. A call that finds the bucket within
its bounds leaves it there exactly if the tokens accrued, modulo `2 ^ 32`, are in the lower half; and then it
is granted a millisecond after the last one exactly if they are not 0 either. A long idle time or a high rate
gets the residue anywhere.
-/

namespace TinyUtils.TokenFrequency

open Int32Bit Runs

def Bounded (c : Ctrl) : Prop := 0 ≤ c.tokenNum ∧ c.tokenNum ≤ c.capacity

/-- The tokens accrued do not come out negative. -/
def LowerHalf (c : Ctrl) (tv : Timeval) : Prop := accrued c tv % 2 ^ 32 < 2 ^ 31

/-- The call is at least a millisecond after the last one, and there is a bucket to fill. -/
def Due (c : Ctrl) (tv : Timeval) : Prop :=
  1 ≤ c.capacity ∧ 1 ≤ c.tokenRate ∧ c.lastAccess.micros + 1000 ≤ tv.micros

def Prompt (c : Ctrl) (tv : Timeval) : Prop := Due c tv → (grant c tv).1 = true

/-- The tokens accrued do not come out as 0. -/
def NotLost (c : Ctrl) (tv : Timeval) : Prop := Due c tv → accrued c tv % 2 ^ 32 ≠ 0

/-- All calls but the first meet `P`. -/
def AfterFirst (P : Ctrl → Timeval → Prop) (c : Ctrl) : List Timeval → Prop
  | [] => True
  | tv :: ts => StepsMeet P (grant c tv).2 (trace (grant c tv).2 ts)

instance (c : Ctrl) (tv : Timeval) : Decidable (LowerHalf c tv) :=
  inferInstanceAs (Decidable (accrued c tv % 2 ^ 32 < 2 ^ 31))

instance (c : Ctrl) (tv : Timeval) : Decidable (Due c tv) :=
  inferInstanceAs (Decidable (1 ≤ c.capacity ∧ 1 ≤ c.tokenRate ∧ c.lastAccess.micros + 1000 ≤ tv.micros))

instance (c : Ctrl) (tv : Timeval) : Decidable (NotLost c tv) :=
  inferInstanceAs (Decidable (Due c tv → accrued c tv % 2 ^ 32 ≠ 0))

/-- A call leaves the tokens within their bounds exactly if those accrued are in the lower half. -/
theorem bounded_grant_iff {c : Ctrl} {tv : Timeval} (hcap : 0 ≤ c.capacity) :
    Bounded (grant c tv).2 ↔ LowerHalf c tv := by
  have hhalf : 0 ≤ tmpTokens c tv ↔ LowerHalf c tv := by
    rw [tmpTokens_eq]
    exact i32_nonneg_iff _
  have hgrant := grant_iff c tv
  rw [← hhalf, Bounded, grant_tokenNum, grant_capacity]
  split
  · have := hgrant.1 (by assumption)
    omega
  · omega

/-- A call that is due is granted exactly if the tokens accrued do not come out as 0. -/
theorem prompt_iff {c : Ctrl} {tv : Timeval} (hhalf : LowerHalf c tv) : Prompt c tv ↔ NotLost c tv := by
  have hnonneg : 0 ≤ accrued c tv % 2 ^ 32 := Int.emod_nonneg _ (by decide)
  have htmp : tmpTokens c tv = accrued c tv % 2 ^ 32 := by
    rw [tmpTokens_eq]
    exact i32_eq_emod hhalf
  have hgrant := grant_iff c tv
  rw [htmp] at hgrant
  constructor
  · intro hprompt hdue
    have := hgrant.1 (hprompt hdue)
    omega
  · intro hkept hdue
    have hcap := hdue.1
    have hne := hkept hdue
    exact hgrant.2 (by omega)

theorem afterFirst_iff {c : Ctrl} {ts : List Timeval} (h : StepsMeet LowerHalf c (trace c ts)) :
    AfterFirst Prompt c ts ↔ AfterFirst NotLost c ts := by
  cases ts with
  | nil => exact Iff.rfl
  | cons tv ts =>
    constructor
    · intro hprompt
      exact (h.2.and hprompt).imp fun s a hs => (prompt_iff hs.1).1 hs.2
    · intro hkept
      exact (h.2.and hkept).imp fun s a hs => (prompt_iff hs.1).2 hs.2

/-- **The bucket is within its bounds in every state, and every call that is due is granted**, exactly if no call
accrues tokens that come out negative, or as 0 when it is due. -/
theorem run_bounded_iff {capacity tokenRate : Int} {tv : Timeval} {ts : List Timeval} (hcap : 0 ≤ capacity)
    (hts : Nondecreasing (tv :: ts)) :
    StatesMeet Bounded (new capacity tokenRate tv) (trace (new capacity tokenRate tv) ts) ∧
        AfterFirst Prompt (new capacity tokenRate tv) ts ↔
      StepsMeet LowerHalf (new capacity tokenRate tv) (trace (new capacity tokenRate tv) ts) ∧
        AfterFirst NotLost (new capacity tokenRate tv) ts := by
  have hstep : ∀ c a c', 0 ≤ c.capacity ∧ Bounded c → Step c a c' → LowerHalf c a → 0 ≤ c'.capacity ∧ Bounded c' := by
    rintro c a c' ⟨hc, _⟩ ⟨_, rfl⟩ hhalf
    exact ⟨by simpa using hc, (bounded_grant_iff hc).2 hhalf⟩
  have hbad : ∀ c a c', 0 ≤ c.capacity ∧ Bounded c → Step c a c' → Bounded c' → LowerHalf c a := by
    rintro c a c' ⟨hc, _⟩ ⟨_, rfl⟩ hb
    exact (bounded_grant_iff hc).1 hb
  have hnew : 0 ≤ (new capacity tokenRate tv).capacity ∧ Bounded (new capacity tokenRate tv) :=
    ⟨hcap, Int.le_refl 0, hcap⟩
  have hrun := run_exact (fun c hc => hc.2) hstep hbad hnew (isRun_trace hts)
  rw [hrun]
  constructor
  · rintro ⟨hhalf, hprompt⟩
    exact ⟨hhalf, (afterFirst_iff hhalf).1 hprompt⟩
  · rintro ⟨hhalf, hkept⟩
    exact ⟨hhalf, (afterFirst_iff hhalf).2 hkept⟩

/-- Calls a second and a day after the first. -/
theorem bounded_day :
    StatesMeet Bounded (new 10 1 (.ofMicros 0))
          (trace (new 10 1 (.ofMicros 0)) [.ofMicros 0, .ofMicros 1000000, .ofMicros 86401000000]) ∧
        AfterFirst Prompt (new 10 1 (.ofMicros 0)) [.ofMicros 0, .ofMicros 1000000, .ofMicros 86401000000] ↔
      StepsMeet LowerHalf (new 10 1 (.ofMicros 0))
          (trace (new 10 1 (.ofMicros 0)) [.ofMicros 0, .ofMicros 1000000, .ofMicros 86401000000]) ∧
        AfterFirst NotLost (new 10 1 (.ofMicros 0)) [.ofMicros 0, .ofMicros 1000000, .ofMicros 86401000000] :=
  run_bounded_iff (by decide) (by decide)

/-- After an idle time of `2 ^ 31` milliseconds, about 25 days, the tokens are `- 2 ^ 31` and the call is refused. -/
theorem not_bounded_idle :
    Nondecreasing [.ofMicros 0, .ofMicros 0, .ofMicros 2147483648000] ∧
      ¬(StatesMeet Bounded (new 10 1 (.ofMicros 0))
          (trace (new 10 1 (.ofMicros 0)) [.ofMicros 0, .ofMicros 2147483648000]) ∧
        AfterFirst Prompt (new 10 1 (.ofMicros 0)) [.ofMicros 0, .ofMicros 2147483648000]) := by
  constructor
  · decide
  · rintro ⟨hstates, _⟩
    have hlast := hstates.last
    have htokens : (last (new 10 1 (.ofMicros 0))
        (trace (new 10 1 (.ofMicros 0)) [.ofMicros 0, .ofMicros 2147483648000])).tokenNum = -2147483648 := by
      decide +kernel
    have hlow := hlast.1
    omega

end TinyUtils.TokenFrequency
