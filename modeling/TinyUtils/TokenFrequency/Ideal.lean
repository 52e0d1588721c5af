import TinyUtils.Lib.Bucket
import TinyUtils.TokenFrequency.Window
/-!
# `Grant` and the bucket that it stands for

A token bucket that credits each microsecond, in thousandths of a token, so that nothing is rounded and nothing wraps
around. `Grant` never gets ahead of it, if the bucket gets 999 microseconds more where the division of `Grant` may round
up (`grants_le_ideal`): what `Grant` rounds down or loses in a wrap-around it saves for no one. On readings in whole
milliseconds, and with no wrap-around, the two give the same answers (`grants_eq_ideal`).
-/

namespace TinyUtils.TokenFrequency

open Int32Bit Runs TokenBucket

/-- The most that a call rounds up, in microseconds: the microsecond field goes down, and not by whole milliseconds. -/
def slack (last tv : Timeval) : Int := if last.usec ≤ tv.usec ∨ 1000 ∣ tv.usec - last.usec then 0 else 999

/-- What the microseconds since the last reading are worth, in thousandths of a token. -/
def credits (tokenRate : Int) : Timeval → List Timeval → List Int
  | _, [] => []
  | last, tv :: ts => tokenRate * (tv.micros - last.micros + slack last tv) :: credits tokenRate tv ts

/-- The answers of the bucket. -/
def ideal (capacity tokenRate : Int) (tv : Timeval) (ts : List Timeval) : List Bool :=
  serve (1000 * capacity) 1000 0 (credits tokenRate tv ts)

theorem millis_le_slack (last tv : Timeval) : 1000 * millis last tv ≤ tv.micros - last.micros + slack last tv := by
  have hmillis := millis_eq last tv
  unfold slack
  split
  next hexact =>
    have hrem : 0 ≤ (tv.usec - last.usec).tmod 1000 := by
      rcases hexact with hup | hdvd
      · exact Int.tmod_nonneg _ (by omega)
      · exact Int.le_of_eq (Int.tmod_eq_zero_of_dvd hdvd).symm
    omega
  next =>
    have hrem : -1000 < (tv.usec - last.usec).tmod 1000 := Int.lt_tmod_of_pos _ (by decide)
    omega

theorem spent_eq (b : Bool) : spent (1000 : Int) b = 1000 * taken b := by
  cases b <;> rfl

/-- The calls of a run are those of a frugal limiter, whose level is the stock. -/
theorem frugal_grants {ts : List Timeval} : ∀ {c : Ctrl}, Sane c → IsRun Step c (trace c ts) →
    ∃ rs, rs.map Prod.fst = credits c.tokenRate c.lastAccess ts ∧ rs.map Prod.snd = grants c ts ∧
      Frugal (1000 * c.capacity) 1000 (1000 * stock c) rs := by
  induction ts with
  | nil =>
    intro c _ _
    exact ⟨[], rfl, rfl, .nil (by simp only [stock]; omega)⟩
  | cons tv ts ih =>
    intro c hc hr
    obtain ⟨rs, hcredits, hgrants, hfrugal⟩ := ih (hc.grant tv) hr.2
    simp only [grant_tokenRate, grant_lastAccess, grant_capacity] at hcredits hfrugal
    refine ⟨(c.tokenRate * (tv.micros - c.lastAccess.micros + slack c.lastAccess tv), (grant c tv).1) :: rs, ?_, ?_, ?_⟩
    · rw [List.map_cons, hcredits, credits]
    · rw [List.map_cons, hgrants, grants]
    · have hbelow := stock_le_capacity hc tv
      have hearned := stock_le_millis hc hr.1.1
      have hworth := Int.mul_le_mul_of_nonneg_left (millis_le_slack c.lastAccess tv) hc.tokenRate_nonneg
      rw [Int.mul_left_comm] at hworth
      refine .cons (by simp only [stock]; omega) (le_min ?_ ?_) hfrugal
      · rw [spent_eq]
        omega
      · rw [spent_eq]
        omega

/-- **`Grant` is never ahead of the bucket**: in no prefix of a run has it granted more requests, wrap-around
included. -/
theorem grants_le_ideal {capacity tokenRate : Int} {tv : Timeval} {ts : List Timeval} (hcap : 0 ≤ capacity)
    (hrate : 0 ≤ tokenRate) (hts : Nondecreasing (tv :: ts)) (j : Nat) :
    ((grants (new capacity tokenRate tv) ts).take j).count true ≤
      ((ideal capacity tokenRate tv ts).take j).count true := by
  obtain ⟨rs, hcredits, hgrants, hfrugal⟩ := frugal_grants (Sane.new hcap hrate tv) (isRun_trace hts)
  have hle := hfrugal.served_le (by decide) j
  rw [hcredits, hgrants] at hle
  exact hle

/-- Two calls that the division takes for a millisecond apart. -/
theorem grants_le_ideal_second :
    ((grants (new 1 1 (.ofMicros 0)) [.ofMicros 999999, .ofMicros 1000000]).take 2).count true ≤
      ((ideal 1 1 (.ofMicros 0) [.ofMicros 999999, .ofMicros 1000000]).take 2).count true :=
  grants_le_ideal (by decide) (by decide) (by decide) 2

/-! ## Whole milliseconds -/

/-- A reading in whole milliseconds. -/
def Whole (tv : Timeval) : Prop := 1000 ∣ tv.usec

instance (tv : Timeval) : Decidable (Whole tv) := inferInstanceAs (Decidable (1000 ∣ tv.usec))

theorem millis_whole {last tv : Timeval} (hlast : Whole last) (htv : Whole tv) :
    1000 * millis last tv = tv.micros - last.micros ∧ slack last tv = 0 := by
  have hdvd : 1000 ∣ tv.usec - last.usec := Int.dvd_sub htv hlast
  constructor
  · rw [millis_eq, Int.tmod_eq_zero_of_dvd hdvd, Int.sub_zero]
  · rw [slack, if_pos (Or.inr hdvd)]

/-- One call that does not wrap around, on a bucket within its bounds. -/
theorem grant_exact {c : Ctrl} {tv : Timeval} (hlow : 0 ≤ accrued c tv) (hhigh : accrued c tv < 2 ^ 31) :
    ((grant c tv).1 = true ↔ 1 ≤ min c.capacity (accrued c tv)) ∧
      (grant c tv).2.tokenNum = min c.capacity (accrued c tv) - taken (grant c tv).1 := by
  have hexact : tmpTokens c tv = accrued c tv := by rw [tmpTokens_eq, i32_eq (by omega) hhigh]
  have hgrant := grant_iff c tv
  have htokens := grant_tokenNum c tv
  rw [hexact] at hgrant htokens
  exact ⟨hgrant, htokens⟩

theorem grants_eq_serve {ts : List Timeval} : ∀ {c : Ctrl}, 0 ≤ c.tokenNum → c.tokenNum ≤ c.capacity →
    0 ≤ c.tokenRate → (∀ tv ∈ c.lastAccess :: ts, Whole tv) → Nondecreasing (c.lastAccess :: ts) →
    (∀ tv ∈ ts, 1000 * c.capacity + c.tokenRate * (tv.micros - c.lastAccess.micros) < 1000 * 2 ^ 31) →
      grants c ts = serve (1000 * c.capacity) 1000 (1000 * c.tokenNum) (credits c.tokenRate c.lastAccess ts) := by
  induction ts with
  | nil =>
    intro c _ _ _ _ _ _
    rfl
  | cons tv ts ih =>
    intro c hlow hhigh hrate hwhole hts hfit
    obtain ⟨hlast, hwhole⟩ := List.forall_mem_cons.1 hwhole
    obtain ⟨htv, hrest⟩ := List.forall_mem_cons.1 hwhole
    obtain ⟨hfirst, hlater⟩ := List.forall_mem_cons.1 hfit
    simp only [Nondecreasing, List.map_cons, List.pairwise_cons, List.forall_mem_cons] at hts
    obtain ⟨hmillis, hslack⟩ := millis_whole hlast htv
    have hworth : 1000 * (c.tokenRate * millis c.lastAccess tv) =
        c.tokenRate * (tv.micros - c.lastAccess.micros) := by rw [← hmillis, Int.mul_left_comm]
    have hearned : 0 ≤ c.tokenRate * millis c.lastAccess tv := Int.mul_nonneg hrate (millis_nonneg hts.1.1)
    have haccrued : accrued c tv = c.tokenNum + c.tokenRate * millis c.lastAccess tv := rfl
    have hlow' : 0 ≤ accrued c tv := by omega
    have hhigh' : accrued c tv < 2 ^ 31 := by omega
    obtain ⟨hgrant, htokens⟩ := grant_exact hlow' hhigh'
    have hbounds : 0 ≤ (grant c tv).2.tokenNum ∧ (grant c tv).2.tokenNum ≤ c.capacity := by
      by_cases hone : (grant c tv).1 = true
      · have := hgrant.1 hone
        rw [htokens, taken, if_pos hone]
        omega
      · rw [htokens, taken, if_neg hone]
        omega
    have hfill : min (1000 * c.capacity) (1000 * c.tokenNum + c.tokenRate * (tv.micros - c.lastAccess.micros)) =
        1000 * min c.capacity (accrued c tv) := by omega
    have hnext : grants (grant c tv).2 ts = serve (1000 * c.capacity) 1000 (1000 * (grant c tv).2.tokenNum)
        (credits c.tokenRate tv ts) := by
      have htail := ih (c := (grant c tv).2)
      simp only [grant_tokenRate, grant_lastAccess, grant_capacity] at htail
      apply htail
      · exact hbounds.1
      · exact hbounds.2
      · exact hrate
      · exact List.forall_mem_cons.2 ⟨htv, hrest⟩
      · exact List.pairwise_cons.2 hts.2
      · intro tv' htv'
        have hend := hlater tv' htv'
        have hless := Int.mul_le_mul_of_nonneg_left (show tv'.micros - tv.micros ≤ tv'.micros - c.lastAccess.micros by
          omega) hrate
        omega
    rw [grants, credits, serve, hslack, Int.add_zero, hfill, hnext, htokens]
    by_cases hone : 1 ≤ min c.capacity (accrued c tv)
    · rw [if_pos (by omega), hgrant.2 hone, taken, if_pos rfl, Int.mul_sub, Int.mul_one]
    · rw [if_neg (by omega), Bool.eq_false_iff.2 (mt hgrant.1 hone), taken, if_neg Bool.false_ne_true, Int.sub_zero]

/-- **On whole milliseconds `Grant` is the bucket**, if the capacity and what the whole run is worth fit in an
`int`. -/
theorem grants_eq_ideal {capacity tokenRate : Int} {tv : Timeval} {ts : List Timeval} (hcap : 0 ≤ capacity)
    (hrate : 0 ≤ tokenRate) (hts : Nondecreasing (tv :: ts)) (hwhole : ∀ t ∈ tv :: ts, Whole t)
    (hfit : ∀ t ∈ ts, 1000 * capacity + tokenRate * (t.micros - tv.micros) < 1000 * 2 ^ 31) :
    grants (new capacity tokenRate tv) ts = ideal capacity tokenRate tv ts :=
  grants_eq_serve (c := new capacity tokenRate tv) (Int.le_refl 0) hcap hrate hwhole hts hfit

/-- Four calls in three milliseconds, on a bucket of two tokens. -/
theorem grants_eq_ideal_burst :
    grants (new 2 1 (.ofMicros 0)) [.ofMicros 2000, .ofMicros 2000, .ofMicros 2000, .ofMicros 3000] =
      ideal 2 1 (.ofMicros 0) [.ofMicros 2000, .ofMicros 2000, .ofMicros 2000, .ofMicros 3000] :=
  grants_eq_ideal (by decide) (by decide) (by decide) (by decide) (by decide)

end TinyUtils.TokenFrequency
