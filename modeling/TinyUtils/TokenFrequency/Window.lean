import TinyUtils.TokenFrequency.Model
/-!
# Tokens and elapsed time

Each call turns its own interval into whole milliseconds, and the division of the microsecond fields
truncates toward zero. Where the microseconds go up the remainder is lost, and where they go down across a
second it is gained. So a limiter may grant more than the elapsed time is worth (`window_bound` says when it
does not), and it loses time when it is polled (`accrual_iff` says when it does not).
-/

namespace TinyUtils.TokenFrequency

open Int32Bit Runs

/-! ## The rate limit -/

/-- The call does not round up, or it makes no difference. -/
def NoGain (c : Ctrl) (tv : Timeval) : Prop :=
  c.capacity = 0 ∨ c.tokenRate = 0 ∨ c.lastAccess.usec ≤ tv.usec ∨ 1000 ∣ tv.usec - c.lastAccess.usec

instance (c : Ctrl) (tv : Timeval) : Decidable (NoGain c tv) :=
  inferInstanceAs (Decidable (c.capacity = 0 ∨ c.tokenRate = 0 ∨ c.lastAccess.usec ≤ tv.usec ∨
    1000 ∣ tv.usec - c.lastAccess.usec))

/-- What holds of the fields in every run. -/
structure Sane (c : Ctrl) : Prop where
  capacity_nonneg : 0 ≤ c.capacity
  tokenRate_nonneg : 0 ≤ c.tokenRate
  low : -2 ^ 31 ≤ c.tokenNum

theorem Sane.new {capacity tokenRate : Int} (hcap : 0 ≤ capacity) (hrate : 0 ≤ tokenRate) (tv : Timeval) :
    Sane (new capacity tokenRate tv) := ⟨hcap, hrate, by simp only [TokenFrequency.new]; omega⟩

theorem Sane.grant {c : Ctrl} (h : Sane c) (tv : Timeval) : Sane (grant c tv).2 := by
  obtain ⟨hcap, hrate, hlow⟩ := h
  refine ⟨by simpa using hcap, by simpa using hrate, ?_⟩
  have hrange := i32_range (accrued c tv)
  have hgrant := grant_iff c tv
  rw [grant_tokenNum, tmpTokens_eq]
  rw [tmpTokens_eq] at hgrant
  split
  · have := hgrant.1 (by assumption)
    omega
  · omega

/-- The tokens that are there; a negative number is as good as none. -/
def stock (c : Ctrl) : Int := max c.tokenNum 0

/-- One token if the call is granted. -/
def taken (b : Bool) : Int := if b then 1 else 0

/-- A call leaves at most the capacity, with the token that it hands out. -/
theorem stock_le_capacity {c : Ctrl} (h : Sane c) (tv : Timeval) :
    stock (grant c tv).2 + taken (grant c tv).1 ≤ c.capacity := by
  have hcap := h.capacity_nonneg
  have hgrant := grant_iff c tv
  rw [stock, grant_tokenNum, taken]
  split
  · have := hgrant.1 (by assumption)
    omega
  · have := mt hgrant.2 (by assumption)
    omega

/-- A call hands out or keeps at most what was there and what the milliseconds are worth. -/
theorem stock_le_millis {c : Ctrl} (h : Sane c) {tv : Timeval} (hle : c.lastAccess.micros ≤ tv.micros) :
    stock (grant c tv).2 + taken (grant c tv).1 ≤ stock c + c.tokenRate * millis c.lastAccess tv := by
  have hearned : 0 ≤ c.tokenRate * millis c.lastAccess tv := Int.mul_nonneg h.tokenRate_nonneg (millis_nonneg hle)
  have hlow := h.low
  have haccrued : accrued c tv = c.tokenNum + c.tokenRate * millis c.lastAccess tv := rfl
  have hwrap : i32 (accrued c tv) ≤ accrued c tv := i32_le (by omega)
  have hgrant := grant_iff c tv
  rw [stock, stock, grant_tokenNum, taken]
  rw [tmpTokens_eq] at hgrant ⊢
  split
  · have := hgrant.1 (by assumption)
    omega
  · have := mt hgrant.2 (by assumption)
    omega

/-- What the elapsed microseconds are worth, for a call that gains nothing by rounding. -/
theorem stock_le {c : Ctrl} (h : Sane c) {tv : Timeval} (hle : c.lastAccess.micros ≤ tv.micros) (hgain : NoGain c tv) :
    1000 * (stock (grant c tv).2 + taken (grant c tv).1) ≤
      1000 * stock c + c.tokenRate * (tv.micros - c.lastAccess.micros) := by
  have hmillis := stock_le_millis h hle
  have hstock : 0 ≤ stock c := by simp only [stock]; omega
  have hworth : 0 ≤ c.tokenRate * (tv.micros - c.lastAccess.micros) :=
    Int.mul_nonneg h.tokenRate_nonneg (by omega)
  rcases hgain with hcap | hrate | hdown
  · have := stock_le_capacity h tv
    omega
  · rw [hrate, Int.zero_mul] at hmillis ⊢
    omega
  · have hrem : 0 ≤ (tv.usec - c.lastAccess.usec).tmod 1000 := by
      rcases hdown with hup | hdvd
      · exact Int.tmod_nonneg _ (by omega)
      · exact Int.le_of_eq (Int.tmod_eq_zero_of_dvd hdvd).symm
    have hround : 1000 * millis c.lastAccess tv ≤ tv.micros - c.lastAccess.micros := by
      rw [millis_eq]
      omega
    have hmul := Int.mul_le_mul_of_nonneg_left hround h.tokenRate_nonneg
    rw [Int.mul_left_comm] at hmul
    omega

theorem count_cons (b : Bool) (l : List Bool) : ((b :: l).count true : Int) = taken b + (l.count true : Int) := by
  cases b
  · simp [taken]
  · simp only [List.count_cons_self, taken, if_true]
    omega

/-- The calls up to `j`, from any state: what was there and what the elapsed time is worth. -/
theorem prefix_bound {j : Nat} : ∀ {c : Ctrl} {ts : List Timeval} {tj : Timeval}, Sane c →
    IsRun Step c (trace c ts) → StepsMeet NoGain c (trace c ts) → (c.lastAccess :: ts)[j]? = some tj →
      1000 * (((grants c ts).take j).count true : Int) ≤
        1000 * stock c + c.tokenRate * (tj.micros - c.lastAccess.micros) := by
  induction j with
  | zero =>
    intro c ts tj _ _ _ hj
    cases hj
    simp only [List.take_zero, List.count_nil, Int.sub_self, stock]
    omega
  | succ j ih =>
    intro c ts tj hc hr hP hj
    cases ts with
    | nil => simp at hj
    | cons tv ts =>
      have hrest := ih (hc.grant tv) hr.2 hP.2 (by rw [grant_lastAccess]; exact hj)
      have hstep := stock_le hc hr.1.1 hP.1
      simp only [grant_tokenRate, grant_lastAccess] at hrest
      rw [grants, List.take_succ_cons, count_cons]
      rw [Int.mul_sub] at hrest hstep ⊢
      omega

/-- A window of calls, from any state. -/
theorem window_bound_from {i : Nat} : ∀ {c : Ctrl} {ts : List Timeval} {j : Nat} {ti tj : Timeval}, Sane c →
    IsRun Step c (trace c ts) → StepsMeet NoGain c (trace c ts) → i ≤ j → ts[i]? = some ti → ts[j]? = some tj →
      1000 * ((((grants c ts).drop i).take (j + 1 - i)).count true - c.capacity) ≤
        c.tokenRate * (tj.micros - ti.micros) := by
  induction i with
  | zero =>
    intro c ts j ti tj hc hr hP _ hi hj
    cases ts with
    | nil => simp at hi
    | cons tv ts =>
      cases hi
      -- the first call of the window leaves at most the capacity
      have hfirst := stock_le_capacity hc ti
      have hrest := prefix_bound (hc.grant ti) hr.2 hP.2 (show ((grant c ti).2.lastAccess :: ts)[j]? = some tj by
        rw [grant_lastAccess]; exact hj)
      simp only [grant_tokenRate, grant_lastAccess] at hrest
      simp only [grants, List.drop_zero, Nat.sub_zero, List.take_succ_cons]
      rw [count_cons]
      omega
  | succ i ih =>
    intro c ts j ti tj hc hr hP hij hi hj
    cases ts with
    | nil => simp at hi
    | cons tv ts =>
      cases j with
      | zero => omega
      | succ j =>
        have hwindow := ih (hc.grant tv) hr.2 hP.2 (Nat.le_of_succ_le_succ hij) hi hj
        simp only [grant_tokenRate, grant_capacity] at hwindow
        have hlen : j + 1 + 1 - (i + 1) = j + 1 - i := by omega
        rw [grants, List.drop_succ_cons, hlen]
        exact hwindow

/-- **The rate limit**: in a run in which no call rounds up, the calls `i` to `j` grant at most the bucket and what
the time between them is worth. -/
theorem window_bound {capacity tokenRate : Int} {tv : Timeval} {ts : List Timeval} (hcap : 0 ≤ capacity)
    (hrate : 0 ≤ tokenRate) (hts : Nondecreasing (tv :: ts))
    (hgain : StepsMeet NoGain (new capacity tokenRate tv) (trace (new capacity tokenRate tv) ts)) {i j : Nat}
    {ti tj : Timeval} (hij : i ≤ j) (hi : ts[i]? = some ti) (hj : ts[j]? = some tj) :
    1000 * ((((grants (new capacity tokenRate tv) ts).drop i).take (j + 1 - i)).count true - capacity) ≤
      tokenRate * (tj.micros - ti.micros) :=
  window_bound_from (Sane.new hcap hrate tv) (isRun_trace hts) hgain hij hi hj

/-- Two calls a millisecond apart. -/
theorem window_bound_apart :
    1000 * ((((grants (new 1 1 (.ofMicros 0)) [.ofMicros 1000, .ofMicros 2000]).drop 0).take (1 + 1 - 0)).count true - 1) ≤
      (1 : Int) * ((Timeval.ofMicros 2000).micros - (Timeval.ofMicros 1000).micros) :=
  window_bound (by decide) (by decide) (by decide) (by decide) (Nat.zero_le 1) rfl rfl

/-- A bucket of one token that gets one in a millisecond grants twice within the microsecond in which a second begins. -/
theorem not_window_bound_second :
    Nondecreasing [.ofMicros 0, .ofMicros 999999, .ofMicros 1000000] ∧
      ¬1000 * ((((grants (new 1 1 (.ofMicros 0)) [.ofMicros 999999, .ofMicros 1000000]).drop 0).take (1 + 1 - 0)).count true
          - 1) ≤ (1 : Int) * ((Timeval.ofMicros 1000000).micros - (Timeval.ofMicros 999999).micros) := by
  constructor
  · decide
  · decide +kernel

/-! ## Polling -/

/-- No arithmetic overflow, and the bucket is not clipped. -/
def Unclipped (c : Ctrl) (tv : Timeval) : Prop :=
  -2 ^ 31 ≤ accrued c tv ∧ accrued c tv < 2 ^ 31 ∧ accrued c tv ≤ c.capacity

instance (c : Ctrl) (tv : Timeval) : Decidable (Unclipped c tv) :=
  inferInstanceAs (Decidable (-2 ^ 31 ≤ accrued c tv ∧ accrued c tv < 2 ^ 31 ∧ accrued c tv ≤ c.capacity))

/-- The microseconds that the divisions of the calls drop, less those that they add. -/
def dropped : Timeval → List Timeval → Int
  | _, [] => 0
  | last, tv :: ts => (tv.usec - last.usec).tmod 1000 + dropped tv ts

/-- The milliseconds that the calls count. -/
def counted : Timeval → List Timeval → Int
  | _, [] => 0
  | last, tv :: ts => millis last tv + counted tv ts

theorem counted_eq {ts : List Timeval} {last : Timeval} :
    1000 * counted last ts = (ts.getLastD last).micros - last.micros - dropped last ts := by
  induction ts generalizing last with
  | nil => simp [counted, dropped]
  | cons tv ts ih =>
    have hmillis := millis_eq last tv
    have hrest := @ih tv
    rw [counted, dropped, List.getLastD_cons]
    omega

/-- Each token that a call takes it hands out. -/
theorem grant_accrued {c : Ctrl} {tv : Timeval} (h : Unclipped c tv) :
    (grant c tv).2.tokenNum + taken (grant c tv).1 = accrued c tv := by
  have hexact : tmpTokens c tv = accrued c tv := by rw [tmpTokens_eq, i32_eq h.1 h.2.1]
  have hcap := h.2.2
  rw [grant_tokenNum, hexact, taken]
  omega

/-- The tokens of a run are what the counted milliseconds are worth. -/
theorem after_accrued {ts : List Timeval} : ∀ {c : Ctrl}, StepsMeet Unclipped c (trace c ts) →
    (after c ts).tokenNum + (grants c ts).count true = c.tokenNum + c.tokenRate * counted c.lastAccess ts := by
  induction ts with
  | nil =>
    intro c _
    simp [after, grants, counted]
  | cons tv ts ih =>
    intro c h
    have hrest := ih h.2
    have hstep := grant_accrued h.1
    simp only [grant_tokenRate, grant_lastAccess] at hrest
    rw [accrued] at hstep
    rw [grants, count_cons, counted, Int.mul_add]
    simp only [after, List.foldl_cons] at hrest ⊢
    omega

/-- **Polling loses no time** exactly if what the calls drop is less than a millisecond in all. -/
theorem accrual_iff {c : Ctrl} {ts : List Timeval} (h : StepsMeet Unclipped c (trace c ts)) :
    (after c ts).tokenNum + (grants c ts).count true =
        c.tokenNum + c.tokenRate * (((ts.getLastD c.lastAccess).micros - c.lastAccess.micros) / 1000) ↔
      c.tokenRate = 0 ∨ (0 ≤ dropped c.lastAccess ts ∧ dropped c.lastAccess ts < 1000) := by
  have hcounted := @counted_eq ts c.lastAccess
  rw [after_accrued h]
  generalize ts.getLastD c.lastAccess = last at hcounted ⊢
  constructor
  · intro heq
    have hmul : c.tokenRate * counted c.lastAccess ts =
        c.tokenRate * ((last.micros - c.lastAccess.micros) / 1000) := Int.add_left_cancel heq
    by_cases hrate : c.tokenRate = 0
    · exact Or.inl hrate
    · right
      have hdiv := Int.eq_of_mul_eq_mul_left hrate hmul
      omega
  · rintro (hrate | hdrop)
    · rw [hrate, Int.zero_mul, Int.zero_mul]
    · have hdiv : counted c.lastAccess ts = (last.micros - c.lastAccess.micros) / 1000 := by omega
      rw [hdiv]

/-- Calls half a millisecond and a whole one apart. -/
theorem accrual_apart :
    (after (new 10 1 (.ofMicros 0)) [.ofMicros 500, .ofMicros 1500]).tokenNum +
          (grants (new 10 1 (.ofMicros 0)) [.ofMicros 500, .ofMicros 1500]).count true =
        0 + 1 * (((Timeval.ofMicros 1500).micros - (Timeval.ofMicros 0).micros) / 1000) ↔
      (1 : Int) = 0 ∨ (0 ≤ dropped (.ofMicros 0) [.ofMicros 500, .ofMicros 1500] ∧
        dropped (.ofMicros 0) [.ofMicros 500, .ofMicros 1500] < 1000) :=
  accrual_iff (c := new 10 1 (.ofMicros 0)) (by decide)

/-- A bucket of ten tokens that gets one in a millisecond, polled every half a millisecond, gets none in one. -/
theorem not_accrual_polled :
    Nondecreasing [.ofMicros 0, .ofMicros 500, .ofMicros 1000] ∧
      StepsMeet Unclipped (after (new 10 1 (.ofMicros 0)) [.ofMicros 0])
        (trace (after (new 10 1 (.ofMicros 0)) [.ofMicros 0]) [.ofMicros 500, .ofMicros 1000]) ∧
      (after (after (new 10 1 (.ofMicros 0)) [.ofMicros 0]) [.ofMicros 500, .ofMicros 1000]).tokenNum +
          (grants (after (new 10 1 (.ofMicros 0)) [.ofMicros 0]) [.ofMicros 500, .ofMicros 1000]).count true ≠
        (after (new 10 1 (.ofMicros 0)) [.ofMicros 0]).tokenNum +
          1 * (((Timeval.ofMicros 1000).micros - (Timeval.ofMicros 0).micros) / 1000) := by
  refine ⟨?_, ?_, ?_⟩
  · decide
  · decide +kernel
  · decide +kernel

end TinyUtils.TokenFrequency
